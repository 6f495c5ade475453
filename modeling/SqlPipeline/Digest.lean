import SqlPipeline.Text

/-!
# Digests

The 64-bit multiplicative hash that names staging tables. It takes eight bytes at a
time, the lowest first, mixes each word by a multiplication on either side of a
shift, and folds the bytes that are left over in as they are. `Digest.hex` is the
value in hexadecimal digits.
-/

namespace SqlPipeline.Digest

/-- The multiplier. -/
def multiplier : UInt64 := 0xc6a4a7935bd1e995

/-- The value of no bytes, before mixing. -/
def seed : UInt64 := 0xc70f6907

/-- Folds the upper bits into the lower ones. -/
def shiftMix (v : UInt64) : UInt64 := v ^^^ (v >>> 47)

/-- The word that bytes stand for, lowest first. -/
def word (bytes : Text) : UInt64 := bytes.foldr (fun b w => (w <<< 8) ||| b.toUInt64) 0

/-- Folds the bytes into the hash, eight at a time. -/
def fold (hash : UInt64) : Text → UInt64
  | b₀ :: b₁ :: b₂ :: b₃ :: b₄ :: b₅ :: b₆ :: b₇ :: rest =>
    let data := shiftMix (word [b₀, b₁, b₂, b₃, b₄, b₅, b₆, b₇] * multiplier) * multiplier
    fold ((hash ^^^ data) * multiplier) rest
  | [] => hash
  | rest => (hash ^^^ word rest) * multiplier

/-- The hash of a text. -/
def hash (t : Text) : UInt64 :=
  let folded := fold (seed ^^^ (UInt64.ofNat t.length * multiplier)) t
  shiftMix (shiftMix folded * multiplier)

/-- A number in hexadecimal digits, without leading zeros. -/
def hexDigits (n : Nat) : Text :=
  let digit (k : Nat) : UInt8 := UInt8.ofNat (if k < 10 then 48 + k else 87 + k)
  if n < 16 then [digit n] else hexDigits (n / 16) ++ [digit (n % 16)]

/-- The hash of a text in hexadecimal digits. -/
def hex (t : Text) : Text := hexDigits (hash t).toNat

end SqlPipeline.Digest
