import Mathlib.Data.List.Basic
import SqlPipeline.Cli.Color

/-!
# Coloring adds codes and nothing else

`signs` reads a text as a terminal does: at every place it takes a code of the palette if one
stands there, and a byte otherwise. Deleting the codes keeps the bytes. In a colored text the
codes come in pairs, a color and the reset behind it, and the bytes between them are those of
the text, because no run is cut off or looked at twice.

The second half is about the scan itself. `Cursor.scan` goes through the text with an index, as
a program over an array of bytes does, and fails where it would read a byte that is not there,
take a larger number from a smaller one, or come to stand still. It never fails, and what it
writes is the colored text.
-/

namespace SqlPipeline.Cli

/-! ## Codes in a text -/

/-- A code of the palette. -/
inductive Code where
  | reset
  | start (color : Color)
  deriving Repr, DecidableEq

namespace Code

/-- The bytes of a code. -/
def text : Code → Text
  | reset => Color.reset
  | start color => color.code

/-- All codes. -/
def palette : List Code :=
  [reset, start .red, start .green, start .yellow, start .cyan, start .magenta, start .dim]

/-- The code that a text starts with. -/
def at? (t : Text) : Option Code := palette.find? fun c => c.text.isPrefixOf t

theorem text_eq_cons (c : Code) : ∃ w, c.text = 27 :: w := by
  rcases c with _ | color
  · exact ⟨_, rfl⟩
  · cases color <;> exact ⟨_, rfl⟩

/-- No code is the beginning of another one. -/
theorem at?_text (c : Code) (rest : Text) : at? (c.text ++ rest) = some c := by
  rcases c with _ | color
  · rfl
  · cases color <;> rfl

/-- Every code starts with an escape. -/
theorem at?_of_ne {b : UInt8} (h : b ≠ 27) (rest : Text) : at? (b :: rest) = none := by
  rw [at?, List.find?_eq_none]
  intro c _
  obtain ⟨w, hw⟩ := c.text_eq_cons
  simp [hw, h.symm]

end Code

/-- What a terminal makes of a text: a code or a byte. -/
inductive Sign where
  | code (c : Code)
  | byte (b : UInt8)
  deriving Repr, DecidableEq

/-- The byte that a sign shows. -/
def Sign.byte? : Sign → Option UInt8
  | code _ => none
  | byte b => some b

/-- The code that a sign is. -/
def Sign.code? : Sign → Option Code
  | code c => some c
  | byte _ => none

/-- A text as a terminal reads it, from left to right. -/
def signs : Text → List Sign
  | [] => []
  | b :: rest =>
    match Code.at? (b :: rest) with
    | some c => .code c :: signs (rest.drop (c.text.length - 1))
    | none => .byte b :: signs rest
termination_by t => t.length
decreasing_by all_goals simp only [List.length_drop, List.length_cons]; omega

/-- A text without the codes of the palette. -/
def deleteCodes (t : Text) : Text := (signs t).filterMap Sign.byte?

/-- The codes of the palette that stand in a text, in order. -/
def codes (t : Text) : List Code := (signs t).filterMap Sign.code?

theorem signs_code (c : Code) (rest : Text) : signs (c.text ++ rest) = .code c :: signs rest := by
  obtain ⟨w, hw⟩ := c.text_eq_cons
  have hat := c.at?_text rest
  rw [hw, List.cons_append] at hat ⊢
  rw [signs, hat]
  simp [hw]

theorem signs_bytes {t : Text} (h : 27 ∉ t) (rest : Text) :
    signs (t ++ rest) = t.map .byte ++ signs rest := by
  induction t with
  | nil => rfl
  | cons b t ih =>
    obtain ⟨hb, ht⟩ := not_or.mp (List.mem_cons.not.mp h)
    rw [List.cons_append, signs, Code.at?_of_ne (Ne.symm hb), ih ht]
    rfl

/-! ## The runs of a text -/

theorem stringExtent_le (t : Text) : stringExtent t ≤ t.length := by
  fun_induction stringExtent t with
  | case1 => exact Nat.le_refl 0
  | case2 => exact Nat.le_refl 1
  | case3 c rest => simp
  | case4 c rest hne ih => simp only [List.length_cons]; omega
  | case5 b c rest hquote hback ih => simp only [List.length_cons] at ih ⊢; omega

/-- A run ends inside the text. -/
theorem runAt_le (b : UInt8) (rest : Text) : (runAt b rest).2 ≤ rest.length := by
  have hword : ∀ word : Text, word.isPrefixOf (b :: rest) = true → word.length - 1 ≤ rest.length := by
    intro word hw
    have hle := (List.isPrefixOf_iff_prefix.mp hw).length_le
    rw [List.length_cons] at hle
    omega
  unfold runAt
  split_ifs with hquote hnumber htrue hfalse hnull hmark
  · exact stringExtent_le rest
  · exact (List.takeWhile_prefix _).length_le
  · exact hword _ htrue
  · exact hword _ hfalse
  · exact hword _ hnull
  · exact Nat.zero_le _
  · exact Nat.zero_le _

theorem colorize_cons (b : UInt8) (rest : Text) :
    colorize (b :: rest) =
      (Segment.mk (runAt b rest).1 (b :: rest.take (runAt b rest).2)).show ++
        colorize (rest.drop (runAt b rest).2) := by
  rw [colorize, segments]
  rfl

/-- The runs of a text make up the text. -/
theorem flatMap_text_segments (t : Text) : (segments t).flatMap Segment.text = t := by
  fun_induction segments t with
  | case1 => rfl
  | case2 b rest color extra hrun ih =>
    rw [List.flatMap_cons, ih, List.cons_append, List.take_append_drop]

/-- A segment as a terminal reads it: its bytes, between the codes of its color. -/
def Segment.signs (s : Segment) : List Sign :=
  match s.color with
  | some c => .code (.start c) :: (s.text.map .byte ++ [.code .reset])
  | none => s.text.map .byte

theorem signs_show {s : Segment} (h : 27 ∉ s.text) (rest : Text) :
    signs (s.show ++ rest) = s.signs ++ signs rest := by
  obtain ⟨color, text⟩ := s
  cases color with
  | none => exact signs_bytes h rest
  | some c =>
    have hreset : signs (Color.reset ++ rest) = .code .reset :: signs rest := signs_code .reset rest
    have hstart : signs (c.code ++ (text ++ (Color.reset ++ rest))) =
        .code (.start c) :: signs (text ++ (Color.reset ++ rest)) := signs_code (.start c) _
    simp only [Segment.show, Color.paint, List.append_assoc, hstart, signs_bytes h, hreset]
    simp [Segment.signs]

/-- What a terminal reads of segments, one after the other. -/
theorem signs_flatMap_show {segs : List Segment} (h : ∀ s ∈ segs, 27 ∉ s.text) :
    signs (segs.flatMap Segment.show) = segs.flatMap Segment.signs := by
  induction segs with
  | nil => simp [signs]
  | cons s segs ih =>
    rw [List.flatMap_cons, List.flatMap_cons, signs_show (h s List.mem_cons_self),
      ih fun g hg => h g (List.mem_cons_of_mem s hg)]

/-- What a terminal reads of a colored text. -/
theorem signs_colorize {t : Text} (h : 27 ∉ t) :
    signs (colorize t) = (segments t).flatMap Segment.signs := by
  refine signs_flatMap_show fun s hs hmem => h ?_
  rw [← flatMap_text_segments t]
  exact List.mem_flatMap.mpr ⟨s, hs, hmem⟩

theorem filterMap_byte?_signs (s : Segment) : s.signs.filterMap Sign.byte? = s.text := by
  have hbytes : (s.text.map Sign.byte).filterMap Sign.byte? = s.text := by
    rw [List.filterMap_map]
    exact List.filterMap_some
  obtain ⟨_ | c, text⟩ := s
  · exact hbytes
  · simp only [Segment.signs, List.filterMap_cons, List.filterMap_append, hbytes]
    exact List.append_nil text

theorem filterMap_code?_signs (s : Segment) :
    s.signs.filterMap Sign.code? = s.color.toList.flatMap fun c => [.start c, .reset] := by
  have hbytes : (s.text.map Sign.byte).filterMap Sign.code? = [] := by
    rw [List.filterMap_map]
    exact List.filterMap_none _
  obtain ⟨_ | c, text⟩ := s
  · exact hbytes
  · simp only [Segment.signs, List.filterMap_cons, List.filterMap_append, hbytes]
    rfl

/-! ## The scan by an index -/

namespace Cursor

/-- The index of the quote that closes a string, looked for from `i` on; without one, an index past the
end. -/
def stringStop (s : Text) (i : Nat) : Option Nat :=
  if i < s.length then
    match s[i]? with
    | none => none
    | some b =>
      if b = 34 then some i
      else if b = 92 then stringStop s (i + 2)
      else stringStop s (i + 1)
  else some i
termination_by s.length - i

/-- The first index from `i` on at which no number goes on. -/
def numberStop (s : Text) (i : Nat) : Option Nat :=
  if i < s.length then
    match s[i]? with
    | none => none
    | some b => if isNumberByte b then numberStop s (i + 1) else some i
  else some i
termination_by s.length - i

/-- A difference that must not be negative. -/
def minus? (m n : Nat) : Option Nat := if n ≤ m then some (m - n) else none

/-- So many bytes from an index on, all of which must be there. -/
def slice? (s : Text) (i count : Nat) : Option Text :=
  if i + count ≤ s.length then some ((s.drop i).take count) else none

/-- Whether a word stands at an index; at the end of the text less is compared. -/
def wordAt (s : Text) (i : Nat) (word : Text) : Bool := (s.drop i).take word.length == word

/-- The number of bytes of the string at an index, up to its closing quote or the last byte there is. -/
def stringCount (s : Text) (i : Nat) : Option Nat := do
  let stop ← stringStop s (i + 1)
  let last ← minus? s.length 1
  let count ← minus? (min stop last) i
  return count + 1

/-- The number of bytes of the number at an index. -/
def numberCount (s : Text) (i : Nat) : Option Nat := do
  let stop ← numberStop s i
  minus? stop i

/-- The color and the number of bytes of the run at an index. -/
def run (s : Text) (i : Nat) : Option (Option Color × Nat) := do
  let b ← s[i]?
  if b == 34 then return (some .green, ← stringCount s i)
  else if Text.isDigit b || b == 45 then return (some .cyan, ← numberCount s i)
  else if wordAt s i "true" then return (some .yellow, 4)
  else if wordAt s i "false" then return (some .yellow, 5)
  else if wordAt s i "null" then return (some .magenta, 4)
  else if isPunctuation b then return (some .dim, 1)
  else return (none, 1)

/-- Colors the text from an index on, one run after the other. A run without bytes would be met again for
ever and is a failure. -/
def scanFrom (s : Text) (i : Nat) : Option Text :=
  if i < s.length then do
    let (color, count) ← run s i
    let t ← slice? s i count
    if count = 0 then none
    else
      let rest ← scanFrom s (i + count)
      return (Segment.mk color t).show ++ rest
  else some []
termination_by s.length - i

/-- Colors a text by an index that starts at its first byte. -/
def scan (s : Text) : Option Text := scanFrom s 0

variable {s rest : Text} {i : Nat} {b : UInt8}

/-- The byte at an index is the first of those from there on. -/
theorem getElem?_eq_some (h : s.drop i = b :: rest) : s[i]? = some b := by
  rw [← List.head?_drop, h]
  rfl

theorem drop_succ (h : s.drop i = b :: rest) : s.drop (i + 1) = rest := by
  rw [← List.tail_drop, h]
  rfl

theorem length_eq (h : s.drop i = b :: rest) : s.length = i + 1 + rest.length := by
  have hlength := congrArg List.length h
  rw [List.length_drop, List.length_cons] at hlength
  omega

theorem exists_drop_eq (h : s[i]? = some b) : ∃ rest, s.drop i = b :: rest := by
  obtain ⟨hlt, rfl⟩ := List.getElem?_eq_some_iff.mp h
  exact ⟨_, List.drop_eq_getElem_cons hlt⟩

theorem stringExtent_quote (rest : Text) : stringExtent (34 :: rest) = 1 := by
  cases rest with
  | nil => rfl
  | cons c rest => rw [stringExtent, if_pos rfl]

theorem stringExtent_other (hquote : b ≠ 34) (hback : b ≠ 92) (rest : Text) :
    stringExtent (b :: rest) = 1 + stringExtent rest := by
  cases rest with
  | nil => rfl
  | cons c rest => rw [stringExtent, if_neg hquote, if_neg hback]

/-- The search for a closing quote reads inside the text, and finds the end of the string. -/
theorem stringStop_eq (s : Text) (i : Nat) :
    ∃ stop, stringStop s i = some stop ∧ i ≤ stop ∧
      (i ≤ s.length → min (stop + 1) s.length = i + stringExtent (s.drop i)) := by
  fun_induction stringStop s i with
  | case1 i hlt hnone =>
    rw [List.getElem?_eq_none_iff] at hnone
    omega
  | case2 i hlt hsome =>
    obtain ⟨rest, hdrop⟩ := exists_drop_eq hsome
    refine ⟨i, rfl, Nat.le_refl i, fun _ => ?_⟩
    rw [hdrop, stringExtent_quote]
    omega
  | case3 i hlt hsome hne ih =>
    obtain ⟨rest, hdrop⟩ := exists_drop_eq hsome
    obtain ⟨stop, hstop, hle, hmin⟩ := ih
    refine ⟨stop, hstop, by omega, fun _ => ?_⟩
    have hlength := length_eq hdrop
    cases rest with
    | nil =>
      -- a backslash that is the last byte takes the search past the end
      rw [hdrop, stringExtent]
      rw [List.length_nil] at hlength
      omega
    | cons c rest =>
      have hdrop' := drop_succ (drop_succ hdrop)
      rw [hdrop, stringExtent, if_neg (by decide), if_pos rfl]
      rw [List.length_cons] at hlength
      rw [hdrop'] at hmin
      omega
  | case4 i hlt b hsome hquote hback ih =>
    obtain ⟨rest, hdrop⟩ := exists_drop_eq hsome
    obtain ⟨stop, hstop, hle, hmin⟩ := ih
    refine ⟨stop, hstop, by omega, fun _ => ?_⟩
    rw [drop_succ hdrop] at hmin
    rw [hdrop, stringExtent_other hquote hback]
    omega
  | case5 i hge =>
    refine ⟨i, rfl, Nat.le_refl i, fun hle => ?_⟩
    rw [List.drop_eq_nil_of_le (by omega), stringExtent]
    omega

/-- The search for the end of a number reads inside the text, and stops behind the number. -/
theorem numberStop_eq (s : Text) (i : Nat) :
    numberStop s i = some (i + ((s.drop i).takeWhile isNumberByte).length) := by
  -- outside of the text, at the end, and at a byte inside that goes on or stops
  fun_induction numberStop s i with
  | case1 i hlt hnone =>
    rw [List.getElem?_eq_none_iff] at hnone
    omega
  | case2 i hlt b hsome hb ih =>
    obtain ⟨rest, hdrop⟩ := exists_drop_eq hsome
    rw [ih, drop_succ hdrop, hdrop, List.takeWhile_cons_of_pos hb, List.length_cons]
    congr 1
    omega
  | case3 i hlt b hsome hb =>
    obtain ⟨rest, hdrop⟩ := exists_drop_eq hsome
    rw [hdrop, List.takeWhile_cons_of_neg hb]
    rfl
  | case4 i hge =>
    rw [List.drop_eq_nil_of_le (by omega)]
    rfl

theorem wordAt_eq (h : s.drop i = b :: rest) (word : Text) :
    wordAt s i word = word.isPrefixOf (b :: rest) := by
  rw [wordAt, h, Bool.eq_iff_iff, beq_iff_eq, List.isPrefixOf_iff_prefix, List.prefix_iff_eq_take]
  exact eq_comm

/-- Neither difference is negative: the search starts behind the opening quote, which is in the text. -/
theorem stringCount_eq (h : s.drop i = b :: rest) : stringCount s i = some (stringExtent rest + 1) := by
  have hlength := length_eq h
  obtain ⟨stop, hstop, hle, hmin⟩ := stringStop_eq s (i + 1)
  have hmin := hmin (by omega)
  rw [drop_succ h] at hmin
  have hlast : minus? s.length 1 = some (s.length - 1) := if_pos (by omega)
  have hcount : minus? (min stop (s.length - 1)) i = some (min stop (s.length - 1) - i) :=
    if_pos (by omega)
  simp only [stringCount, hstop, hlast, hcount, Option.bind_eq_bind, Option.bind_some]
  exact congrArg some (by omega)

theorem numberCount_eq (h : s.drop i = b :: rest) (hb : isNumberByte b = true) :
    numberCount s i = some ((rest.takeWhile isNumberByte).length + 1) := by
  simp only [numberCount, numberStop_eq, h, List.takeWhile_cons_of_pos hb, List.length_cons,
    Option.bind_eq_bind, Option.bind_some, minus?]
  rw [if_pos (by omega), Nat.add_sub_cancel_left]

/-- The run at an index is the run at the front of what is left. -/
theorem run_eq (h : s.drop i = b :: rest) :
    run s i = some ((runAt b rest).1, (runAt b rest).2 + 1) := by
  simp only [run, getElem?_eq_some h, wordAt_eq h, Option.bind_eq_bind, Option.bind_some]
  unfold runAt
  split_ifs with hquote hnumber htrue hfalse hnull hmark
  · rw [stringCount_eq h]
    rfl
  · have hb : isNumberByte b = true := by grind [isNumberByte]
    rw [numberCount_eq h hb]
    rfl
  all_goals rfl

/-- A run is there from its first byte to its last. -/
theorem slice?_eq (h : s.drop i = b :: rest) :
    slice? s i ((runAt b rest).2 + 1) = some (b :: rest.take (runAt b rest).2) := by
  have hlength := length_eq h
  have hle := runAt_le b rest
  rw [slice?, if_pos (by omega), h, List.take_succ_cons]

/-- The scan from an index on gives what is left, in color. -/
theorem scanFrom_eq (s : Text) (i : Nat) : scanFrom s i = some (colorize (s.drop i)) := by
  -- every run has a byte, so that less is left behind it
  induction hleft : s.length - i using Nat.strongRecOn generalizing i with
  | ind left ih =>
    rw [scanFrom]
    by_cases hlt : i < s.length
    · obtain ⟨rest, hdrop⟩ := exists_drop_eq (List.getElem?_eq_getElem hlt)
      have hrest : s.drop (i + ((runAt s[i] rest).2 + 1)) = rest.drop (runAt s[i] rest).2 := by
        rw [← List.drop_drop, hdrop, List.drop_succ_cons]
      have hnext := ih _ (by omega) (i + ((runAt s[i] rest).2 + 1)) rfl
      rw [if_pos hlt]
      simp only [run_eq hdrop, slice?_eq hdrop, hnext, hrest, Option.bind_eq_bind, Option.bind_some]
      rw [if_neg (by omega), hdrop, colorize_cons]
      rfl
    · rw [if_neg hlt, List.drop_eq_nil_of_le (by omega)]
      simp [colorize, segments]

end Cursor

/--
**Coloring only inserts codes.**

Let a text be free of escape bytes. Deleting the codes of the palette from the colored text gives the text
back, byte for byte, whether it is JSON or not. The codes that stand in the colored text are pairs of a
color and a reset, so that no color starts before the one in front of it has ended. And for every text,
with escape bytes or without, the scan by an index comes to an end: it reads no byte that is not there and
computes no negative length, and what it writes is the colored text.
-/
theorem colorize_inserts_codes (t : Text) :
    (27 ∉ t →
      deleteCodes (colorize t) = t ∧
        ∃ colors : List Color, codes (colorize t) = colors.flatMap fun c => [.start c, .reset]) ∧
      Cursor.scan t = some (colorize t) := by
  refine ⟨fun h => ⟨?_, (segments t).flatMap fun s => s.color.toList, ?_⟩, ?_⟩
  · calc deleteCodes (colorize t)
        = (segments t).flatMap fun s => s.signs.filterMap Sign.byte? := by
          rw [deleteCodes, signs_colorize h, List.filterMap_flatMap]
      _ = (segments t).flatMap Segment.text := by simp only [filterMap_byte?_signs]
      _ = t := flatMap_text_segments t
  · -- the codes of a segment are a start and a reset, if it has a color at all
    calc codes (colorize t)
        = (segments t).flatMap fun s => s.signs.filterMap Sign.code? := by
          rw [codes, signs_colorize h, List.filterMap_flatMap]
      _ = (segments t).flatMap fun s => s.color.toList.flatMap fun c => [.start c, .reset] := by
          simp only [filterMap_code?_signs]
      _ = ((segments t).flatMap fun s => s.color.toList).flatMap fun c => [.start c, .reset] :=
          List.flatMap_assoc.symm
  · exact Cursor.scanFrom_eq t 0

/-- A string without its closing quote, whose last byte is a backslash. -/
theorem colorize_inserts_codes_openString :
    27 ∉ Text.ofString "[-1,\"a\\" ∧
      deleteCodes (colorize "[-1,\"a\\") = Text.ofString "[-1,\"a\\" ∧
      codes (colorize "[-1,\"a\\") =
        [.start .dim, .reset, .start .cyan, .reset, .start .dim, .reset, .start .green, .reset] ∧
      Cursor.scan "[-1,\"a\\" = some (colorize "[-1,\"a\\") := by
  have hescape : 27 ∉ Text.ofString "[-1,\"a\\" := by decide
  obtain ⟨hinserts, hscan⟩ := colorize_inserts_codes "[-1,\"a\\"
  exact ⟨hescape, (hinserts hescape).1, by decide +kernel, hscan⟩

end SqlPipeline.Cli
