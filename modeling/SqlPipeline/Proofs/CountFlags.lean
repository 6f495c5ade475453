import SqlPipeline.Cli.Options
import SqlPipeline.Proofs.Limits

/-!
# Counts given by flags

The value of `--limit` and of `--source-limit` is meant to be a number that is not negative:
digits, with nothing but blanks in front of them, of a number below `2 ^ 64`. A sign is looked
for at the first byte only. The reader behind that test skips blanks before it takes a sign
itself, so a sign that stands behind blanks is never seen by the test, and a minus there turns a
small number into one close to `2 ^ 64`.

`Count.Denotes` says what is meant and `Count.HidesSign` what slips through. The two together
are exactly the values that a flag takes, wherever it stands among the arguments.
-/

namespace SqlPipeline

namespace Count

variable {t : Text} {n : Nat}

/-- The text is the digits of `n`, which fits in a word. -/
def IsWord (t : Text) (n : Nat) : Prop := t.IsDigits ∧ Text.toNat t = n ∧ n < UInt64.size

/-- The text is a sign in front of the digits of a word, and is read as `n`. -/
inductive Signed : Text → Nat → Prop where
  | plus {digits : Text} {n : Nat} : IsWord digits n → Signed (43 :: digits) n
  | minus {digits : Text} {n : Nat} : IsWord digits n →
      Signed (45 :: digits) ((UInt64.size - n) % UInt64.size)

/-- The text is the count `n` as it is meant: digits with nothing but blanks in front of them. -/
def Denotes (t : Text) (n : Nat) : Prop :=
  ∃ blanks digits : Text, t = blanks ++ digits ∧ (∀ b ∈ blanks, Text.isBlank b = true) ∧
    IsWord digits n

/-- The text has a sign in front of its digits and at least one blank in front of that, and is read as
`n`. -/
def HidesSign (t : Text) (n : Nat) : Prop :=
  ∃ blanks signed : Text, t = blanks ++ signed ∧ blanks ≠ [] ∧
    (∀ b ∈ blanks, Text.isBlank b = true) ∧ Signed signed n

/-- A digit is neither a blank nor a sign. -/
theorem isDigit_apart {b : UInt8} (h : Text.isDigit b = true) :
    Text.isBlank b = false ∧ b ≠ 45 ∧ b ≠ 43 := by
  refine ⟨?_, ?_, ?_⟩
  · grind [Text.isDigit, Text.isBlank]
  · rintro rfl
    cases h
  · rintro rfl
    cases h

theorem IsWord.eq_cons (h : IsWord t n) : ∃ b w, t = b :: w ∧ Text.isDigit b = true := by
  obtain ⟨b, w, rfl⟩ := List.exists_cons_of_ne_nil h.1.1
  exact ⟨b, w, rfl, h.1.2 b List.mem_cons_self⟩

theorem Signed.eq_cons (h : Signed t n) : ∃ b w, t = b :: w ∧ (b = 45 ∨ b = 43) := by
  cases h with
  | plus hd => exact ⟨43, _, rfl, Or.inr rfl⟩
  | minus hd => exact ⟨45, _, rfl, Or.inl rfl⟩

theorem IsWord.not_signed {m : Nat} (h : IsWord t n) : ¬Signed t m := by
  intro hs
  obtain ⟨b, w, rfl, hb⟩ := h.eq_cons
  obtain ⟨c, w', he, hc⟩ := hs.eq_cons
  obtain rfl := (List.cons.inj he).1
  exact hc.elim (isDigit_apart hb).2.1 (isDigit_apart hb).2.2

/-- The blanks in front are those before the first byte that is none. -/
theorem dropWhile_blanks {blanks rest : Text} (h : ∀ b ∈ blanks, Text.isBlank b = true)
    (hrest : ∃ b w, rest = b :: w ∧ Text.isBlank b = false) :
    (blanks ++ rest).dropWhile Text.isBlank = rest := by
  obtain ⟨b, w, rfl, hb⟩ := hrest
  rw [List.dropWhile_append_of_pos h, List.dropWhile_cons_of_neg (by simp [hb])]

/-- What is meant starts with a digit past its blanks. -/
theorem Denotes.isWord (h : Denotes t n) : IsWord (t.dropWhile Text.isBlank) n := by
  obtain ⟨blanks, digits, rfl, hblanks, hd⟩ := h
  obtain ⟨b, w, he, hb⟩ := hd.eq_cons
  rwa [dropWhile_blanks hblanks ⟨b, w, he, (isDigit_apart hb).1⟩]

/-- What slips through starts with a sign past its blanks. -/
theorem HidesSign.signed (h : HidesSign t n) : Signed (t.dropWhile Text.isBlank) n := by
  obtain ⟨blanks, signed, rfl, -, hblanks, hs⟩ := h
  obtain ⟨b, w, he, hb⟩ := hs.eq_cons
  have hblank : Text.isBlank b = false := by
    rcases hb with rfl | rfl <;> decide
  rwa [dropWhile_blanks hblanks ⟨b, w, he, hblank⟩]

theorem Denotes.not_hidesSign {m : Nat} (h : Denotes t n) : ¬HidesSign t m := fun hs =>
  h.isWord.not_signed hs.signed

theorem unsigned_eq_some_iff : unsigned t = some n ↔ IsWord t n := by
  -- digits may still be too many; anything else is no number at all
  by_cases h : t.IsDigits
  · obtain ⟨hne, hall⟩ := h
    have hread : (t.isEmpty || !t.all Text.isDigit) = false := by
      simp [hne, List.all_eq_true.mpr hall]
    rw [unsigned, hread, if_neg Bool.false_ne_true]
    constructor
    · intro hn
      split_ifs at hn with hlt
      obtain rfl := Option.some.inj hn
      exact ⟨⟨hne, hall⟩, rfl, hlt⟩
    · rintro ⟨-, rfl, hlt⟩
      exact if_pos hlt
  · have hread : (t.isEmpty || !t.all Text.isDigit) = true := by
      rw [Bool.or_eq_true, List.isEmpty_iff, Bool.not_eq_true', ← Bool.not_eq_true, List.all_eq_true]
      by_contra hc
      rw [not_or, not_not] at hc
      exact h hc
    rw [unsigned, hread, if_pos rfl]
    exact iff_of_false (by simp) fun hn => h hn.1

/-- What is read of a text, past its blanks: digits, or a sign and digits. -/
theorem word_eq_some_iff :
    word t = some n ↔
      IsWord (t.dropWhile Text.isBlank) n ∨ Signed (t.dropWhile Text.isBlank) n := by
  -- digits do not start with a sign, so the two ways to write a number exclude each other
  have hsign : ∀ b w, IsWord (b :: w) n → b ≠ 45 ∧ b ≠ 43 := fun b w h =>
    (isDigit_apart (h.1.2 b List.mem_cons_self)).2
  unfold word
  split
  · rename_i digits hrest
    rw [hrest, or_iff_right fun hw => (hsign _ _ hw).1 rfl, Option.map_eq_some_iff]
    constructor
    · rintro ⟨m, hm, rfl⟩
      exact .minus (unsigned_eq_some_iff.mp hm)
    · rintro ⟨⟩
      rename_i m hm
      exact ⟨m, unsigned_eq_some_iff.mpr hm, rfl⟩
  · rename_i digits hrest
    rw [hrest, or_iff_right fun hw => (hsign _ _ hw).2 rfl, unsigned_eq_some_iff]
    exact ⟨.plus, fun | .plus hd => hd⟩
  · rename_i hminus hplus
    rw [unsigned_eq_some_iff, or_iff_left]
    intro hs
    obtain ⟨b, w, he, rfl | rfl⟩ := hs.eq_cons
    · exact hminus w he
    · exact hplus w he

/-- A flag reads as every count does, if no sign comes first. -/
theorem flag_eq_some_iff_word :
    flag t = some n ↔ (∀ b w, t = b :: w → b ≠ 45 ∧ b ≠ 43) ∧ word t = some n := by
  cases t with
  | nil => exact iff_of_false (by simp [flag]) (by simp [word, unsigned])
  | cons b w =>
    rw [flag]
    split_ifs with hb
    · refine iff_of_false (by simp) fun h => ?_
      have hb : b = 45 ∨ b = 43 := by simpa using hb
      exact hb.elim (h.1 b w rfl).1 (h.1 b w rfl).2
    · have hb : b ≠ 45 ∧ b ≠ 43 := by simpa using hb
      refine ⟨fun h => ⟨?_, h⟩, fun h => h.2⟩
      rintro _ _ ⟨⟩
      exact hb

/-- **What a flag takes**: counts as they are meant, and counts behind a hidden sign. -/
theorem flag_eq_some_iff : flag t = some n ↔ Denotes t n ∨ HidesSign t n := by
  have hblanks : ∀ b ∈ t.takeWhile Text.isBlank, Text.isBlank b = true :=
    fun b hb => List.mem_takeWhile_imp hb
  have hsplit : t = t.takeWhile Text.isBlank ++ t.dropWhile Text.isBlank :=
    List.takeWhile_append_dropWhile.symm
  rw [flag_eq_some_iff_word, word_eq_some_iff]
  constructor
  · rintro ⟨hfirst, hd | hs⟩
    · exact Or.inl ⟨_, _, hsplit, hblanks, hd⟩
    · refine Or.inr ⟨_, _, hsplit, fun hnil => ?_, hblanks, hs⟩
      -- without blanks the sign would be the first byte
      obtain ⟨b, w, he, hb⟩ := hs.eq_cons
      rw [hnil, he, List.nil_append] at hsplit
      exact hb.elim (hfirst b w hsplit).1 (hfirst b w hsplit).2
  · have hfirst : ∀ {blanks rest : Text}, (∀ b ∈ blanks, Text.isBlank b = true) → blanks ≠ [] →
        ∀ b w, blanks ++ rest = b :: w → b ≠ 45 ∧ b ≠ 43 := by
      intro blanks rest hall hne b w he
      obtain ⟨c, blanks, rfl⟩ := List.exists_cons_of_ne_nil hne
      obtain rfl := (List.cons.inj he).1
      have hc := hall c List.mem_cons_self
      constructor <;> rintro rfl <;> cases hc
    rintro (hd | hs)
    · refine ⟨?_, Or.inl hd.isWord⟩
      obtain ⟨blanks, digits, rfl, hall, hd⟩ := hd
      by_cases hnil : blanks = []
      · subst hnil
        rintro b w rfl
        exact (isDigit_apart (hd.1.2 b List.mem_cons_self)).2
      · exact hfirst hall hnil
    · refine ⟨?_, Or.inr hs.signed⟩
      obtain ⟨blanks, signed, rfl, hne, hall, -⟩ := hs
      exact hfirst hall hne

theorem flag_eq_none_iff : flag t = none ↔ (∀ n, ¬Denotes t n) ∧ ∀ n, ¬HidesSign t n := by
  rw [Option.eq_none_iff_forall_ne_some, ← forall_and]
  exact forall_congr' fun n => by rw [Ne, flag_eq_some_iff, not_or]

end Count

namespace Cli

/-- The flags whose value is a count. -/
inductive CountFlag where
  | limit
  | sourceLimit
  deriving Repr, DecidableEq

namespace CountFlag

/-- The flag among all that take a value. -/
def flag : CountFlag → ValueFlag
  | limit => .limit
  | sourceLimit => .sourceLimit

/-- The flag as it is written. -/
def name (c : CountFlag) : Text := c.flag.name

/-- The options with the count of the flag. -/
def set (c : CountFlag) (n : Nat) (o : Options) : Options :=
  match c with
  | limit => { o with outputLimit := some n }
  | sourceLimit => { o with sourceLimit := some n }

/-- What the flag is meant to do with a value: to take a count, and to report everything else. -/
def Exact (c : CountFlag) (o : Options) (value : Text) (outcome : Options × Option ArgumentFault) :
    Prop :=
  (∀ n, Count.Denotes value n → outcome = (c.set n o, none)) ∧
    ((∀ n, ¬Count.Denotes value n) → outcome = (o, some (.badCount c.name)))

end CountFlag

namespace Options

variable {o o' : Options} {before : List Text}

/-- A flag and its value are set, and reading goes on behind them. -/
theorem parseFrom_value {flag : ValueFlag} {argument : Text} (o : Options)
    (hflag : ValueFlag.ofName? argument = some flag) (value : Text) (rest : List Text) :
    o.parseFrom (argument :: value :: rest) =
      match o.setValue flag value with
      | (o, none) => parseFrom o rest
      | (o, some fault) => (o, some fault) := by
  rw [parseFrom.eq_def]
  rcases hset : o.setValue flag value with ⟨o', _ | fault⟩ <;> simp only [hflag, hset]

/-- Arguments without a fault are read, and what follows goes on from there. -/
theorem parseFrom_append (h : o.parseFrom before = (o', none)) (rest : List Text) :
    o.parseFrom (before ++ rest) = o'.parseFrom rest := by
  fun_induction parseFrom o before with
  | case1 o =>
    cases h
    rfl
  | case2 o argument flag value args hflag o₁ hset ih =>
    rw [List.cons_append, List.cons_append, parseFrom_value o hflag, hset]
    exact ih h
  | case3 => cases h
  | case4 => cases h
  | case5 o argument args hflag o₁ hset ih =>
    simp only [List.cons_append, parseFrom, hflag, hset]
    exact ih h
  | case6 => cases h

/-- What a count flag does with its value. -/
theorem parseFrom_count (o : Options) (c : CountFlag) (value : Text) (after : List Text) :
    o.parseFrom (c.name :: value :: after) =
      match Count.flag value with
      | some n => (c.set n o).parseFrom after
      | none => (o, some (.badCount c.name)) := by
  have hflag : ValueFlag.ofName? c.name = some c.flag := by cases c <;> decide
  have hset : o.setValue c.flag value =
      match Count.flag value with
      | some n => (c.set n o, none)
      | none => (o, some (.badCount c.name)) := by
    cases c <;> rfl
  rw [parseFrom_value o hflag, hset]
  cases Count.flag value <;> rfl

/--
**A count flag takes a hidden sign.**

Let the arguments in front of a count flag be without fault, and let `o` be what they set. If its value is a
count as it is meant, the flag takes it and the option holds that number. It also takes a value with a sign
hidden behind blanks, and then holds the number modulo `2 ^ 64` with that sign. Every other value is
reported: a sign in front or in between, bytes behind the digits, no digits, a number from `2 ^ 64` on. So a
flag does what it is meant to do exactly with the values that hide no sign.
-/
theorem parse_count_hidden_sign (h : parse before = (o, none)) (c : CountFlag) (value : Text) :
    (∀ after n, Count.Denotes value n →
        parse (before ++ c.name :: value :: after) = (c.set n o).parseFrom after) ∧
      (∀ after n, Count.HidesSign value n →
        parse (before ++ c.name :: value :: after) = (c.set n o).parseFrom after) ∧
      ((∀ n, ¬Count.Denotes value n) → (∀ n, ¬Count.HidesSign value n) →
        ∀ after, parse (before ++ c.name :: value :: after) = (o, some (.badCount c.name))) ∧
      (c.Exact o value (parse (before ++ [c.name, value])) ↔ ∀ n, ¬Count.HidesSign value n) := by
  have hparse : ∀ after, parse (before ++ c.name :: value :: after) =
      match Count.flag value with
      | some n => (c.set n o).parseFrom after
      | none => (o, some (.badCount c.name)) := fun after => by
    rw [parse, parseFrom_append h, parseFrom_count]
  have htaken : ∀ after n, Count.Denotes value n ∨ Count.HidesSign value n →
      parse (before ++ c.name :: value :: after) = (c.set n o).parseFrom after := fun after n hn => by
    rw [hparse, Count.flag_eq_some_iff.mpr hn]
  have hrefused : (∀ n, ¬Count.Denotes value n) → (∀ n, ¬Count.HidesSign value n) →
      ∀ after, parse (before ++ c.name :: value :: after) = (o, some (.badCount c.name)) :=
    fun hd hs after => by rw [hparse, Count.flag_eq_none_iff.mpr ⟨hd, hs⟩]
  refine ⟨fun after n hn => htaken after n (.inl hn), fun after n hn => htaken after n (.inr hn),
    hrefused, fun hexact n hn => ?_, fun hs => ⟨fun n hn => ?_, fun hd => hrefused hd hs []⟩⟩
  · -- such a value is no count, so it would have to be reported
    have hfault := hexact.2 fun m hm => hm.not_hidesSign hn
    rw [htaken [] n (.inr hn)] at hfault
    cases congrArg Prod.snd hfault
  · exact htaken [] n (.inl hn)

/-- The largest count, behind a tab and at a flag that comes second. -/
theorem parse_count_hidden_sign_largest :
    parse ["--format"] = ({ default with formatTree := true }, none) ∧
      Count.Denotes "\t18446744073709551615" 18446744073709551615 ∧
      parse ["--format", "--source-limit", "\t18446744073709551615", "--limit", "5-"] =
        ({ default with formatTree := true, sourceLimit := some 18446744073709551615 },
          some (.badCount "--limit")) := by
  have hformat : parse ["--format"] = ({ default with formatTree := true }, none) := by decide
  have hcount : Count.Denotes "\t18446744073709551615" 18446744073709551615 :=
    ⟨"\t", "18446744073709551615", by decide, List.all_eq_true.mp (by decide), by decide, by decide,
      by decide⟩
  have hafter : parseFrom { default with formatTree := true, sourceLimit := some 18446744073709551615 }
      ["--limit", "5-"] =
        ({ default with formatTree := true, sourceLimit := some 18446744073709551615 },
          some (.badCount "--limit")) := by decide
  have htaken := (parse_count_hidden_sign hformat .sourceLimit _).1 ["--limit", "5-"] _ hcount
  exact ⟨hformat, hcount, htaken.trans hafter⟩

/-- **A negative count is taken**: five below zero, behind a space, is taken for the fifth number below
`2 ^ 64`. -/
theorem parse_takes_negative_count :
    parse ["--limit", " -5"] = ({ default with outputLimit := some 18446744073709551611 }, none) ∧
      (∀ n, ¬Count.Denotes " -5" n) ∧
      ¬CountFlag.limit.Exact default " -5" (parse ["--limit", " -5"]) := by
  have hparse : parse ["--limit", " -5"] =
      ({ default with outputLimit := some 18446744073709551611 }, none) := by decide
  have hmeant : ∀ n, ¬Count.Denotes " -5" n := fun n hn => by
    have hdigits : Text.IsDigits "-5" := hn.isWord.1
    exact absurd hdigits (by decide)
  refine ⟨hparse, hmeant, fun hexact => ?_⟩
  have hfault := hexact.2 hmeant
  rw [hparse] at hfault
  cases congrArg Prod.snd hfault

end Options

end Cli

end SqlPipeline
