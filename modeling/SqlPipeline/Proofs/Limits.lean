import Mathlib.Data.List.DropRight
import SqlPipeline.Cli.Config

/-!
# The limit of a configuration file

The value of `output.limit` is read digit by digit into a word of 64 bits. Every digit
multiplies what is there by ten, and what does not fit is lost. So the limit that a file
sets is the number it names modulo `2 ^ 64`: exact below `2 ^ 64`, and wrong beyond, where
no error is reported either. Any other text than a run of digits is refused.

The first half of the file takes a line `key = value` apart, down to its blanks.
-/

namespace SqlPipeline

/-! ## Texts between blanks and between new lines -/

namespace Text

section Trim

variable {p : UInt8 → Bool}

/-- The blanks behind a text are those behind its last byte that is none. -/
theorem rdropWhile_append_cons {b : UInt8} (h : p b = false) (t u : Text) :
    (t ++ b :: u).rdropWhile p = t ++ b :: u.rdropWhile p := by
  induction u using List.reverseRecOn with
  | nil => rw [List.rdropWhile_concat_neg p t b (by simp [h]), List.rdropWhile_nil]
  | append_singleton u c ih =>
    by_cases hc : p c = true
    · rw [List.rdropWhile_concat_pos p u c hc, ← ih, ← List.cons_append, ← List.append_assoc,
        List.rdropWhile_concat_pos p _ c hc]
    · rw [List.rdropWhile_concat_neg p u c hc, ← List.cons_append, ← List.append_assoc,
        List.rdropWhile_concat_neg p _ c hc]

/-- The blanks in front of a text are those in front of its first byte that is none. -/
theorem dropWhile_append_cons {b : UInt8} (h : p b = false) (t u : Text) :
    (t ++ b :: u).dropWhile p = t.dropWhile p ++ b :: u := by
  induction t with
  | nil => simp [h]
  | cons c t ih =>
    rw [List.cons_append, List.dropWhile_cons, List.dropWhile_cons]
    split
    · exact ih
    · rfl

/-- It does not matter which end is trimmed first. -/
theorem dropWhile_rdropWhile (t : Text) :
    (t.rdropWhile p).dropWhile p = (t.dropWhile p).rdropWhile p := by
  by_cases hall : ∀ b ∈ t, p b = true
  · rw [List.rdropWhile_eq_nil_iff.mpr hall, List.dropWhile_eq_nil_iff.mpr hall]
    rfl
  · push Not at hall
    obtain ⟨b, hb, hp⟩ := hall
    have hp : p b = false := by simpa using hp
    obtain ⟨front, back, rfl⟩ := List.append_of_mem hb
    rw [rdropWhile_append_cons hp, dropWhile_append_cons hp, dropWhile_append_cons hp,
      rdropWhile_append_cons hp]

end Trim

theorem splitOn_of_not_mem {separator : UInt8} {t : Text} (h : separator ∉ t) :
    splitOn separator t = [t] := by
  induction t with
  | nil => rfl
  | cons b t ih =>
    obtain ⟨hb, ht⟩ := not_or.mp (List.mem_cons.not.mp h)
    rw [splitOn, if_neg (by simpa using Ne.symm hb), ih ht]

theorem splitOn_append {separator : UInt8} {t : Text} (h : separator ∉ t) (rest : Text) :
    splitOn separator (t ++ separator :: rest) = t :: splitOn separator rest := by
  induction t with
  | nil => simp [splitOn]
  | cons b t ih =>
    obtain ⟨hb, ht⟩ := not_or.mp (List.mem_cons.not.mp h)
    rw [List.cons_append, splitOn, if_neg (by simpa using Ne.symm hb), ih ht]

end Text

namespace Cli.Config

theorem strip_eq (t : Text) : strip t = (t.dropWhile isBlank).rdropWhile isBlank := rfl

theorem strip_rdropWhile (t : Text) : strip (t.rdropWhile isBlank) = strip t := by
  rw [strip_eq, Text.dropWhile_rdropWhile, List.rdropWhile_idempotent, strip_eq]

/-- **A line with an equals sign sets a key**: what stands before the first one, unless it is blank or
starts like a comment or a heading. -/
theorem readLine_setting {key w value : Text} {b : UInt8} (hkey : 61 ∉ key)
    (hfirst : key.dropWhile isBlank = b :: w) (hb : b ≠ 35 ∧ b ≠ 91) :
    readLine (key ++ 61 :: value) = .setting (strip key) (strip value) := by
  have hblank : isBlank b = false := by
    have hne : key.dropWhile isBlank ≠ [] := hfirst ▸ List.cons_ne_nil b w
    simpa [hfirst] using List.head_dropWhile_not isBlank hne
  -- the key has no equals sign, so the first one of the line is the one that splits it
  have hw : ∀ c ∈ b :: w, (c != 61) = true := by
    intro c hc
    have hmem : c ∈ key := (List.dropWhile_suffix isBlank).subset (hfirst ▸ hc)
    exact bne_iff_ne.mpr fun he => hkey (he ▸ hmem)
  have hcontent : strip (key ++ 61 :: value) = b :: w ++ 61 :: value.rdropWhile isBlank := by
    rw [strip_eq, Text.dropWhile_append_cons (by decide), Text.rdropWhile_append_cons (by decide),
      hfirst]
  have hname : strip (b :: w) = strip key := by
    rw [strip_eq, strip_eq, ← hfirst, List.dropWhile_idempotent]
  have hnonempty : strip key ≠ [] := by
    rw [strip_eq, hfirst, Ne, List.rdropWhile_eq_nil_iff]
    intro hall
    simpa [hblank] using hall b List.mem_cons_self
  have hbefore : (b :: w ++ 61 :: value.rdropWhile isBlank).takeWhile (· != 61) = b :: w := by
    rw [List.takeWhile_append_of_pos hw]
    simp
  have hafter : (b :: w ++ 61 :: value.rdropWhile isBlank).dropWhile (· != 61) =
      61 :: value.rdropWhile isBlank := by
    rw [List.dropWhile_append_of_pos hw]
    simp
  unfold readLine
  rw [hcontent]
  split
  · -- the line is not blank, and it starts neither a comment nor a heading
    rename_i heq; cases heq
  · rename_i heq
    exact absurd (List.cons.inj heq).1 hb.1
  · rename_i heq
    exact absurd (List.cons.inj heq).1 hb.2
  · simp only [hbefore, hafter, hname, strip_rdropWhile]
    rw [if_neg (by simpa using hnonempty)]

end Cli.Config

/-! ## Digits -/

/-- A run of digits, of at least one. -/
def Text.IsDigits (t : Text) : Prop := t ≠ [] ∧ ∀ b ∈ t, Text.isDigit b = true

instance (t : Text) : Decidable t.IsDigits :=
  decidable_of_iff ((!t.isEmpty && t.all Text.isDigit) = true) (by simp [Text.IsDigits])

namespace Count

/-- Dropping the high bits at every digit drops the high bits of the number. -/
theorem foldl_low_bits (t : Text) (n : Nat) :
    t.foldl (fun n b => (n * 10 + Text.digitValue b) % wordSize) (n % wordSize) =
      t.foldl (fun n b => n * 10 + Text.digitValue b) n % wordSize := by
  induction t generalizing n with
  | nil => rfl
  | cons b t ih =>
    have hstep : (n % wordSize * 10 + Text.digitValue b) % wordSize =
        (n * 10 + Text.digitValue b) % wordSize := by
      rw [Nat.add_mod, Nat.mod_mul_mod, ← Nat.add_mod]
    rw [List.foldl_cons, List.foldl_cons, hstep, ih]

theorem digits_of_isDigits {t : Text} (h : t.IsDigits) : digits t = some (Text.toNat t % UInt64.size) := by
  obtain ⟨hne, hall⟩ := h
  have hread : (t.isEmpty || !t.all Text.isDigit) = false := by
    simp [hne, List.all_eq_true.mpr hall]
  rw [digits, hread, if_neg Bool.false_ne_true]
  exact congrArg some (foldl_low_bits t 0)

theorem digits_of_not_isDigits {t : Text} (h : ¬t.IsDigits) : digits t = none := by
  rw [digits, if_pos]
  rw [Bool.or_eq_true, List.isEmpty_iff, Bool.not_eq_true', ← Bool.not_eq_true, List.all_eq_true]
  by_contra hc
  rw [not_or, not_not] at hc
  exact h hc

end Count

/-! ## The limit -/

namespace Cli.Config

/-- Settings that are taken change the settings, and what follows goes on from there. -/
theorem applyAll_append {s s' : Settings} {before : List Entry} (h : applyAll s before = (s', none))
    (rest : List Entry) : applyAll s (before ++ rest) = applyAll s' rest := by
  induction before generalizing s with
  | nil =>
    cases h
    rfl
  | cons entry before ih =>
    rw [List.cons_append, applyAll]
    rw [applyAll] at h
    cases hset : entry.key.set entry.value s with
    | none =>
      rw [hset] at h
      cases h
    | some s₁ =>
      rw [hset] at h
      exact ih h

/-- A file that sets the limit and nothing else. -/
theorem entries_limit {value : Text} (h : 10 ∉ value) :
    entries ("[output]\nlimit = " ++ value) = [⟨2, .outputLimit, strip value⟩] := by
  have hopening : (10 : UInt8) ∉ Text.ofString "[output]" := by decide
  have hvalue : (10 : UInt8) ∉ Text.ofString "limit = " ++ value := by
    rw [List.mem_append, not_or]
    exact ⟨by decide, h⟩
  have hlines : Text.splitOn 10 ("[output]\nlimit = " ++ value) =
      [Text.ofString "[output]", "limit = " ++ value] := by
    rw [← Text.splitOn_of_not_mem hvalue]
    exact Text.splitOn_append hopening _
  have hheading : readLine "[output]" = .heading "output" := by decide
  have hname : (61 : UInt8) ∉ Text.ofString "limit " := by decide
  have hfirst : (Text.ofString "limit ").dropWhile isBlank = 108 :: "imit " := by decide
  have hsetting : readLine ("limit = " ++ value) = .setting "limit" (strip value) :=
    readLine_setting hname hfirst (by decide)
  have hkey : Key.ofName? (fullKey "output" "limit") = some .outputLimit := by decide
  rw [entries, hlines]
  simp only [entriesFrom, hheading, hsetting, hkey]

/-- What setting the limit comes to if limits are exact: the number of a run of digits that fits in a word,
and else a fault. -/
def exactLimit (s : Settings) (line : Nat) (value : Text) (after : List Entry) :
    Settings × Option Fault :=
  if value.IsDigits ∧ Text.toNat value < UInt64.size then
    applyAll { s with outputLimit := some (Text.toNat value) } after
  else (s, some ⟨.outputLimit, line⟩)

/-- What a file comes to whose first faults can only be at the line that sets the limit or after it. -/
theorem load_limit {file value : Text} {before after : List Entry} {line : Nat} {s : Settings}
    (hfile : entries file = before ++ ⟨line, .outputLimit, value⟩ :: after)
    (hbefore : applyAll .unset before = (s, none)) :
    load file =
      if value.IsDigits then
        applyAll { s with outputLimit := some (Text.toNat value % UInt64.size) } after
      else (s, some ⟨.outputLimit, line⟩) := by
  rw [load, hfile, applyAll_append hbefore, applyAll]
  split_ifs with hdigits
  · simp only [Key.set, Count.digits_of_isDigits hdigits, Option.map_some]
  · simp only [Key.set, Count.digits_of_not_isDigits hdigits, Option.map_none]

/-- Below `2 ^ 64` dropping the high bits changes nothing. -/
theorem exactLimit_of_lt {value : Text} (h : value.IsDigits → Text.toNat value < UInt64.size)
    (s : Settings) (line : Nat) (after : List Entry) :
    exactLimit s line value after =
      if value.IsDigits then
        applyAll { s with outputLimit := some (Text.toNat value % UInt64.size) } after
      else (s, some ⟨.outputLimit, line⟩) := by
  by_cases hdigits : value.IsDigits
  · rw [exactLimit, if_pos ⟨hdigits, h hdigits⟩, if_pos hdigits, Nat.mod_eq_of_lt (h hdigits)]
  · rw [exactLimit, if_neg fun hboth => hdigits hboth.1, if_neg hdigits]

/--
**A limit is taken modulo `2 ^ 64`.**

Let a file set `output.limit` to a value on some line, with no fault before it, and let `s` be what is set
up to there. If the value is a run of digits, the line is taken: the limit is the number modulo `2 ^ 64`,
and loading goes on. If it is anything else, loading ends there with a fault that names the key and the
line. So limits are exact as long as no run of digits names a number from `2 ^ 64` on. A file that sets the
limit and nothing else, to any text on one line, has an exact limit only then.
-/
theorem load_limit_low_bits (value : Text) :
    (∀ (file : Text) (before after : List Entry) (line : Nat) (s : Settings),
        entries file = before ++ ⟨line, .outputLimit, value⟩ :: after →
        applyAll .unset before = (s, none) →
          (value.IsDigits →
            load file = applyAll { s with outputLimit := some (Text.toNat value % UInt64.size) } after) ∧
          (¬value.IsDigits → load file = (s, some ⟨.outputLimit, line⟩)) ∧
          ((value.IsDigits → Text.toNat value < UInt64.size) →
            load file = exactLimit s line value after)) ∧
      (10 ∉ value →
        (load ("[output]\nlimit = " ++ value) = exactLimit .unset 2 (strip value) [] ↔
          ((strip value).IsDigits → Text.toNat (strip value) < UInt64.size))) := by
  refine ⟨fun file before after line s hfile hbefore => ?_, fun hvalue => ?_⟩
  · have hload := load_limit hfile hbefore
    refine ⟨fun hdigits => ?_, fun hdigits => ?_, fun hlt => ?_⟩
    · rw [hload, if_pos hdigits]
    · rw [hload, if_neg hdigits]
    · rw [hload, exactLimit_of_lt hlt]
  · have hfile : entries ("[output]\nlimit = " ++ value) =
        [] ++ ⟨2, .outputLimit, strip value⟩ :: [] := entries_limit hvalue
    have hload := load_limit hfile rfl
    constructor
    · intro hexact hdigits
      by_contra hlarge
      -- a number that does not fit would be a fault, and there is none
      rw [hload, if_pos hdigits, exactLimit, if_neg fun hboth => hlarge hboth.2] at hexact
      cases congrArg Prod.snd hexact
    · intro hlt
      rw [hload, exactLimit_of_lt hlt]

/-- The largest limit that is kept, on the third line of a file, and a limit with a sign. -/
theorem load_limit_low_bits_largest :
    load "[output]\nmode = json\nlimit = 18446744073709551615" =
        ({ Settings.unset with outputMode := some .json, outputLimit := some 18446744073709551615 },
          none) ∧
      load ("[output]\nlimit = " ++ "+5") = (.unset, some ⟨.outputLimit, 2⟩) := by
  constructor
  · have hfile : entries "[output]\nmode = json\nlimit = 18446744073709551615" =
        [⟨2, .outputMode, "json"⟩] ++ ⟨3, .outputLimit, "18446744073709551615"⟩ :: [] := by decide
    have hbefore : applyAll .unset [⟨2, .outputMode, "json"⟩] =
        ({ Settings.unset with outputMode := some .json }, none) := by decide
    obtain ⟨htaken, -, -⟩ := (load_limit_low_bits _).1 _ _ _ _ _ hfile hbefore
    exact htaken (by decide)
  · exact ((load_limit_low_bits "+5").2 (by decide)).mpr (by decide)

/-- **A limit that does not fit is taken for another one**: `2 ^ 64` is taken for zero. -/
theorem load_limit_beyond_word :
    Text.IsDigits "18446744073709551616" ∧ Text.toNat "18446744073709551616" = UInt64.size ∧
      load ("[output]\nlimit = " ++ "18446744073709551616") =
        ({ Settings.unset with outputLimit := some 0 }, none) ∧
      exactLimit .unset 2 "18446744073709551616" [] = (.unset, some ⟨.outputLimit, 2⟩) := by
  decide

end Cli.Config

end SqlPipeline
