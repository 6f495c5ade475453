import SqlPipeline.Proofs.Limits

/-!
# What a configuration file says

A file is read in one pass, with the section that is open and the settings so far. This file
says what comes of it without a pass. `effective` are the lines `key = value` of the file, each
by itself: its number, its key under the last section that was opened before it, and its value.
`Settings.ofLines` looks for the last of the lines for each key.

Loading agrees with that: it stops at the first line whose value its key does not take, and sets
what the lines before it say. The step is that setting one more key is the same as having one
more line. It follows that lines which say nothing can stand anywhere.
-/

namespace SqlPipeline.Cli

namespace Config

/-! ## Lines -/

/-- The section that a line opens, which is the name between its first bracket and its last. -/
def heading? (t : Text) : Option Text :=
  let content := strip t
  if content.head? = some 91 ∧ content.getLast? = some 93 then some (strip content.tail.dropLast)
  else none

/-- The key and the value of a line: what stands in front of its first equals sign and what stands behind
it. Comments, lines that start with a bracket and lines without a key have none. -/
def assignment? (t : Text) : Option (Text × Text) :=
  let content := strip t
  let key := strip (content.takeWhile (· != 61))
  if content.head? = some 35 ∨ content.head? = some 91 ∨ 61 ∉ content ∨ key = [] then none
  else some (key, strip (content.dropWhile (· != 61)).tail)

/-- The section that is open behind lines, if `current` is open in front of them. -/
def sectionAfter (current : Text) (lines : List Text) : Text :=
  (lines.filterMap heading?).getLast?.getD current

/-- A line that sets a key: its number, its key with the section, and its value. -/
structure Effective where
  line : Nat
  key : Text
  value : Text
  deriving Repr, DecidableEq

/-- The lines that set a key, if the first line has the number `start` and stands under `current`. -/
def effectiveFrom (start : Nat) (current : Text) (lines : List Text) : List Effective :=
  (lines.mapIdx fun i t => (assignment? t).map fun (key, value) =>
    (⟨start + i, fullKey (sectionAfter current (lines.take i)) key, value⟩ : Effective)).filterMap id

/-- The lines of a file that set a key. -/
def effective (file : Text) : List Effective := effectiveFrom 1 [] (Text.splitOn 10 file)

theorem sectionAfter_cons (current t : Text) (lines : List Text) :
    sectionAfter current (t :: lines) = sectionAfter ((heading? t).getD current) lines := by
  rw [sectionAfter, sectionAfter]
  cases h : heading? t with
  | none => rw [List.filterMap_cons_none h, Option.getD_none]
  | some name => rw [List.filterMap_cons_some h, List.getLast?_cons, Option.getD_some, Option.getD_some]

theorem effectiveFrom_cons (start : Nat) (current t : Text) (lines : List Text) :
    effectiveFrom start current (t :: lines) =
      ((assignment? t).map fun (key, value) =>
        (⟨start, fullKey current key, value⟩ : Effective)).toList ++
        effectiveFrom (start + 1) ((heading? t).getD current) lines := by
  simp only [effectiveFrom, List.mapIdx_cons, List.take_zero, List.take_succ_cons, sectionAfter_cons,
    Nat.add_zero, ← Nat.add_assoc, Nat.add_right_comm start 1]
  cases assignment? t with
  | none => rfl
  | some assigned => rfl

theorem head?_of_heading {t name : Text} (h : heading? t = some name) : (strip t).head? = some 91 := by
  by_contra hne
  rw [heading?, if_neg fun hb => hne hb.1] at h
  cases h

/-- A line that opens a section sets no key. -/
theorem assignment?_of_heading {t name : Text} (h : heading? t = some name) : assignment? t = none := by
  rw [assignment?, if_pos (Or.inr (Or.inl (head?_of_heading h)))]

/-- What the reader makes of a line. -/
theorem readLine_eq (t : Text) :
    readLine t =
      match heading? t, assignment? t with
      | some name, _ => .heading name
      | none, some (key, value) => .setting key value
      | none, none => .nothing := by
  unfold readLine heading? assignment?
  split
  · rename_i hcontent
    simp [hcontent]
  · rename_i hcontent
    simp [hcontent]
  · rename_i rest hcontent
    -- a bracket alone is a line of its own kind, so the last byte is asked of the rest
    have hlast : (91 :: rest).getLast? = some 93 ↔ rest.getLast? = some 93 := by
      cases rest <;> simp
    rw [hcontent]
    by_cases h : rest.getLast? = some 93 <;> simp [h, hlast]
  · rename_i content hnil hhash hbracket
    -- what the cases before have ruled out, said of the first byte
    have hhash : (strip t).head? ≠ some 35 := fun h =>
      have ⟨rest, hrest⟩ := List.head?_eq_some_iff.mp h
      hhash rest hrest
    have hbracket : (strip t).head? ≠ some 91 := fun h =>
      have ⟨rest, hrest⟩ := List.head?_eq_some_iff.mp h
      hbracket rest hrest
    have hmem : 61 ∉ strip t ↔ (strip t).dropWhile (· != 61) = [] := by
      rw [List.dropWhile_eq_nil_iff]
      exact ⟨fun h b hb => bne_iff_ne.mpr fun he => h (he ▸ hb), fun h hb => by simpa using h 61 hb⟩
    simp only [hhash, hbracket, hmem, false_or, false_and, if_false]
    cases hback : (strip t).dropWhile (· != 61) with
    | nil => simp
    | cons b value =>
      by_cases hkey : strip ((strip t).takeWhile (· != 61)) = [] <;> simp [hkey]

/-! ## Values -/

/-- The quotes that a value names. -/
def quoteValue? (value : Text) : Option QuoteStyle :=
  (textValue? value).bind fun name => QuoteStyle.ofName? (Text.toLower name)

/-- The output mode that a value names. -/
def modeValue? (value : Text) : Option OutputMode :=
  (textValue? value).bind fun name => OutputMode.ofName? (Text.toLower name)

/-- Whether a key takes a value. -/
def Key.takes (key : Key) (value : Text) : Bool :=
  match key with
  | dialectName | createOptions => (textValue? value).isSome
  | identifierQuote => (quoteValue? value).isSome
  | outputMode => (modeValue? value).isSome
  | windowFunctions | temporaryTables | temporaryFallback | booleanLiterals | rightFullJoins =>
    (boolValue? value).isSome
  | outputLimit => (Count.digits value).isSome

/-- Whether the line has a known key that does not take its value. -/
def Effective.rejected (e : Effective) : Bool :=
  match Key.ofName? e.key with
  | some key => !key.takes e.value
  | none => false

/-- The value of the last of the lines for a key. -/
def latest? (key : Key) (lines : List Effective) : Option Text :=
  ((lines.filter fun e => e.key = key.name).getLast?).map Effective.value

end Config

open Config in
/-- The settings that lines say: the last value of each key. -/
def Settings.ofLines (lines : List Effective) : Settings :=
  { dialectName := (latest? .dialectName lines).bind textValue?
    identifierQuote := (latest? .identifierQuote lines).bind quoteValue?
    windowFunctions := (latest? .windowFunctions lines).bind boolValue?
    temporaryTables := (latest? .temporaryTables lines).bind boolValue?
    temporaryFallback := (latest? .temporaryFallback lines).bind boolValue?
    booleanLiterals := (latest? .booleanLiterals lines).bind boolValue?
    rightFullJoins := (latest? .rightFullJoins lines).bind boolValue?
    createOptions := (latest? .createOptions lines).bind textValue?
    outputMode := (latest? .outputMode lines).bind modeValue?
    outputLimit := (latest? .outputLimit lines).bind Count.digits }

namespace Config

/-- The known key that a line sets. -/
def Effective.known? (e : Effective) : Option Entry :=
  (Key.ofName? e.key).map fun key => ⟨e.line, key, e.value⟩

theorem Key.ofName?_eq_some_iff {name : Text} {key : Key} :
    Key.ofName? name = some key ↔ name = key.name := by
  constructor
  · intro h
    have hfound := List.find?_some (p := fun key : Key => key.name == name) h
    exact (eq_of_beq hfound).symm
  · rintro rfl
    cases key <;> decide

/-- One line more changes the value of its own key. -/
theorem latest?_concat (key : Key) (lines : List Effective) (e : Effective) :
    latest? key (lines ++ [e]) = if e.key = key.name then some e.value else latest? key lines := by
  rw [latest?, List.filter_append]
  by_cases h : e.key = key.name
  · simp [h]
  · simp [h, latest?]

/-- **One step**: setting a key is having one line more. -/
theorem Key.set_ofLines {key : Key} {e : Effective} (h : e.key = key.name) (lines : List Effective) :
    key.set e.value (.ofLines lines) =
      if key.takes e.value then some (.ofLines (lines ++ [e])) else none := by
  have hname : ∀ k : Key, e.key = k.name ↔ key = k := fun k => by
    rw [← Key.ofName?_eq_some_iff, Key.ofName?_eq_some_iff.mpr h, Option.some_inj]
  have hlast : ∀ k, latest? k (lines ++ [e]) = if key = k then some e.value else latest? k lines :=
    fun k => by simp only [latest?_concat, hname]
  -- the key that is set reads its value, and no other key has got a new line
  cases key with
  | dialectName | createOptions =>
    cases hvalue : textValue? e.value <;> simp [Key.set, Key.takes, Settings.ofLines, hlast, hvalue]
  | identifierQuote =>
    change (quoteValue? e.value).map _ = _
    cases hvalue : quoteValue? e.value <;> simp [Key.takes, Settings.ofLines, hlast, hvalue]
  | outputMode =>
    change (modeValue? e.value).map _ = _
    cases hvalue : modeValue? e.value <;> simp [Key.takes, Settings.ofLines, hlast, hvalue]
  | windowFunctions | temporaryTables | temporaryFallback | booleanLiterals | rightFullJoins =>
    cases hvalue : boolValue? e.value <;> simp [Key.set, Key.takes, Settings.ofLines, hlast, hvalue]
  | outputLimit =>
    cases hvalue : Count.digits e.value <;> simp [Key.set, Key.takes, Settings.ofLines, hlast, hvalue]

/-- A line for a key that nobody knows says nothing. -/
theorem ofLines_concat {e : Effective} (h : Key.ofName? e.key = none) (lines : List Effective) :
    Settings.ofLines (lines ++ [e]) = .ofLines lines := by
  have hname : ∀ k : Key, e.key ≠ k.name := fun k he => by
    rw [Key.ofName?_eq_some_iff.mpr he] at h
    cases h
  simp only [Settings.ofLines, latest?_concat, hname, if_false]

/-- **A run**: as long as every value is taken, setting the keys of lines is having the lines. -/
theorem applyAll_ofLines (done lines : List Effective) (h : ∀ e ∈ lines, e.rejected = false) :
    applyAll (.ofLines done) (lines.filterMap Effective.known?) = (.ofLines (done ++ lines), none) := by
  induction lines generalizing done with
  | nil => simp [applyAll]
  | cons e lines ih =>
    have hnext := ih (done ++ [e]) fun x hx => h x (List.mem_cons_of_mem e hx)
    rw [List.append_assoc, List.singleton_append] at hnext
    have he := h e List.mem_cons_self
    -- a line of an unknown key is an effective line but no entry, and sets nothing
    cases hkey : Key.ofName? e.key with
    | none =>
      rw [List.filterMap_cons_none (by simp [Effective.known?, hkey]), ← hnext,
        ofLines_concat hkey]
    | some key =>
      have htakes : key.takes e.value = true := by simpa [Effective.rejected, hkey] using he
      have hset := Key.set_ofLines (Key.ofName?_eq_some_iff.mp hkey) done
      rw [htakes, if_pos rfl] at hset
      rw [List.filterMap_cons_some (b := ⟨e.line, key, e.value⟩) (by simp [Effective.known?, hkey]),
        applyAll, hset]
      exact hnext

/-- The entries of a file are its lines with known keys. -/
theorem entriesFrom_eq (number : Nat) (current : Text) (lines : List Text) :
    entriesFrom number current lines =
      (effectiveFrom number current lines).filterMap Effective.known? := by
  induction lines generalizing number current with
  | nil => rfl
  | cons t lines ih =>
    rw [entriesFrom, readLine_eq, effectiveFrom_cons, List.filterMap_append, ← ih]
    -- a heading changes the section and an assignment does not; no line does both
    cases hheading : heading? t with
    | some name =>
      rw [assignment?_of_heading hheading]
      rfl
    | none =>
      cases assignment? t with
      | none => rfl
      | some assigned =>
        simp only [Option.map_some, Option.toList_some, List.filterMap_cons, Effective.known?]
        cases Key.ofName? (fullKey current assigned.1) with
        | none => rfl
        | some key => rfl

theorem entries_eq (file : Text) : entries file = (effective file).filterMap Effective.known? :=
  entriesFrom_eq 1 [] _

/-! ## Loading -/

variable {file : Text}

theorem load_of_taken (h : ∀ e ∈ effective file, e.rejected = false) :
    load file = (.ofLines (effective file), none) := by
  rw [load, entries_eq]
  exact applyAll_ofLines [] _ h

theorem load_of_rejected {before after : List Effective} {e : Effective}
    (hlines : effective file = before ++ e :: after) (hbefore : ∀ x ∈ before, x.rejected = false)
    (he : e.rejected = true) :
    ∃ key : Key, key.name = e.key ∧ load file = (.ofLines before, some ⟨key, e.line⟩) := by
  cases hkey : Key.ofName? e.key with
  | none => simp [Effective.rejected, hkey] at he
  | some key =>
    have hname := Key.ofName?_eq_some_iff.mp hkey
    have htakes : key.takes e.value = false := by simpa [Effective.rejected, hkey] using he
    have hset := Key.set_ofLines hname before
    rw [htakes, if_neg Bool.false_ne_true] at hset
    -- everything before the line has been set when it is found
    have hrun := applyAll_ofLines [] before hbefore
    refine ⟨key, hname.symm, ?_⟩
    rw [load, entries_eq, hlines, List.filterMap_append,
      List.filterMap_cons_some (b := ⟨e.line, key, e.value⟩) (by simp [Effective.known?, hkey])]
    rw [show Settings.unset = .ofLines [] from rfl, applyAll_append hrun, List.nil_append, applyAll, hset]

/-- Loading fails exactly if some line has a known key that does not take its value. -/
theorem load_ok_iff : (load file).2 = none ↔ ∀ e ∈ effective file, e.rejected = false := by
  refine ⟨fun hok => ?_, fun h => by rw [load_of_taken h]⟩
  by_contra hrejected
  cases hfirst : (effective file).find? Effective.rejected with
  | none => exact hrejected fun e he => by simpa using List.find?_eq_none.mp hfirst e he
  | some e =>
    obtain ⟨he, before, after, hlines, hbefore⟩ := List.find?_eq_some_iff_append.mp hfirst
    obtain ⟨key, -, hload⟩ := load_of_rejected hlines (fun x hx => by simpa using hbefore x hx) he
    rw [hload] at hok
    cases hok

/-! ## Lines that say nothing -/

/-- The line is blank, a comment, or sets a key that nobody knows under the section that is open. -/
def Idle (current t : Text) : Prop :=
  strip t = [] ∨ (strip t).head? = some 35 ∨
    ∃ key value, assignment? t = some (key, value) ∧ Key.ofName? (fullKey current key) = none

/-- The number of a line once there is one more line behind the first `count` lines. -/
def movedTo (count line : Nat) : Nat := if line ≤ count then line else line + 1

/-- The line under another number. -/
def Effective.renumber (f : Nat → Nat) (e : Effective) : Effective := { e with line := f e.line }

/-- The entry under another number. -/
def Entry.renumber (f : Nat → Nat) (e : Entry) : Entry := { e with line := f e.line }

/-- The fault at another line. -/
def Fault.renumber (f : Nat → Nat) (fault : Fault) : Fault := { fault with line := f fault.line }

theorem effectiveFrom_append (start : Nat) (current : Text) (front back : List Text) :
    effectiveFrom start current (front ++ back) =
      effectiveFrom start current front ++
        effectiveFrom (start + front.length) (sectionAfter current front) back := by
  induction front generalizing start current with
  | nil => rfl
  | cons t front ih =>
    rw [List.cons_append, effectiveFrom_cons, effectiveFrom_cons, ih, sectionAfter_cons,
      List.append_assoc, List.length_cons, Nat.add_assoc start 1, Nat.add_comm 1]

theorem effectiveFrom_renumber (f : Nat → Nat) {start start' : Nat} (current : Text) (lines : List Text)
    (h : ∀ i < lines.length, f (start + i) = start' + i) :
    effectiveFrom start' current lines =
      (effectiveFrom start current lines).map (Effective.renumber f) := by
  induction lines generalizing start start' current with
  | nil => rfl
  | cons t lines ih =>
    -- the first line moves as the one at the start does, the rest as those after it
    have hstart : f start = start' := h 0 (Nat.zero_lt_succ _)
    have hrest : ∀ i < lines.length, f (start + 1 + i) = start' + 1 + i := fun i hi => by
      have hi := h (i + 1) (by rw [List.length_cons]; omega)
      rw [show start + 1 + i = start + (i + 1) by omega, hi]
      omega
    rw [effectiveFrom_cons, effectiveFrom_cons, List.map_append, ih _ hrest]
    cases assignment? t with
    | none => rfl
    | some assigned => rw [← hstart]; rfl

theorem known?_renumber (f : Nat → Nat) (e : Effective) :
    (e.renumber f).known? = e.known?.map (Entry.renumber f) := by
  rw [Effective.known?, Effective.known?, Option.map_map]
  rfl

theorem applyAll_renumber (f : Nat → Nat) (s : Settings) (entries : List Entry) :
    applyAll s (entries.map (Entry.renumber f)) =
      ((applyAll s entries).1, (applyAll s entries).2.map (Fault.renumber f)) := by
  induction entries generalizing s with
  | nil => rfl
  | cons e entries ih =>
    have hset : (e.renumber f).key.set (e.renumber f).value s = e.key.set e.value s := rfl
    rw [List.map_cons, applyAll, applyAll, hset]
    cases e.key.set e.value s with
    | none => rfl
    | some s => exact ih s

theorem Idle.heading? {current t : Text} (h : Idle current t) : heading? t = none := by
  cases hname : Config.heading? t with
  | none => rfl
  | some name =>
    have hbracket := head?_of_heading hname
    rcases h with hblank | hcomment | ⟨key, value, hassigned, -⟩
    · simp [hblank] at hbracket
    · simp [hcomment] at hbracket
    · rw [assignment?_of_heading hname] at hassigned
      cases hassigned

/-- Such a line has no entry. -/
theorem Idle.known? {current t : Text} (h : Idle current t) (number : Nat) :
    ((assignment? t).map fun (key, value) =>
      (⟨number, fullKey current key, value⟩ : Effective)).toList.filterMap Effective.known? = [] := by
  rcases h with hblank | hcomment | ⟨key, value, hassigned, hunknown⟩
  · simp [assignment?, hblank]
  · simp [assignment?, hcomment]
  · simp [hassigned, Effective.known?, hunknown]

/-- One more line that says nothing only moves the lines behind it. -/
theorem entries_insert {file' t : Text} {front back : List Text}
    (hlines : Text.splitOn 10 file = front ++ back) (hlines' : Text.splitOn 10 file' = front ++ t :: back)
    (h : Idle (sectionAfter [] front) t) :
    entries file' = (entries file).map (Entry.renumber (movedTo front.length)) := by
  -- lines before the new one keep their numbers, and those after it move on by one
  have hfront : effectiveFrom 1 [] front =
      (effectiveFrom 1 [] front).map (Effective.renumber (movedTo front.length)) :=
    effectiveFrom_renumber _ [] front fun i hi => if_pos (by omega)
  have hback : effectiveFrom (1 + front.length + 1) (sectionAfter [] front) back =
      (effectiveFrom (1 + front.length) (sectionAfter [] front) back).map
        (Effective.renumber (movedTo front.length)) :=
    effectiveFrom_renumber _ _ back fun i _ => by
      rw [movedTo, if_neg (by omega)]
      omega
  rw [entries_eq, entries_eq, effective, effective, hlines, hlines', effectiveFrom_append,
    effectiveFrom_append, effectiveFrom_cons, h.heading?, Option.getD_none, List.filterMap_append,
    List.filterMap_append, h.known?, List.nil_append, ← List.filterMap_append, hback]
  nth_rewrite 1 [hfront]
  rw [← List.map_append, List.filterMap_map, List.map_filterMap]
  exact List.filterMap_congr fun e _ => known?_renumber _ e

/--
**A file means its lines.**

Loading fails exactly if some line has a known key that does not take its value. If there is none, every
setting is the value of the last line for its key, and is unset without such a line. Otherwise the error
names the key and the number of the first such line, and the settings are those of the lines before it.
A blank line, a comment or a line for an unknown key can be put anywhere or taken away: the settings are
the same, and so is the error, at the number that its line has then.
-/
theorem load_means_lines (file : Text) :
    ((load file).2 = none ↔ ∀ e ∈ effective file, e.rejected = false) ∧
      ((∀ e ∈ effective file, e.rejected = false) → load file = (.ofLines (effective file), none)) ∧
      (∀ before e after, effective file = before ++ e :: after →
        (∀ x ∈ before, x.rejected = false) → e.rejected = true →
          ∃ fault, load file = (.ofLines before, some fault) ∧
            fault.key.name = e.key ∧ fault.line = e.line ∧
            fault.message =
              "Invalid " ++ e.key ++ " at line " ++ Text.ofNat e.line ++ fault.key.hint) ∧
      ∀ file' front t back, Text.splitOn 10 file = front ++ back →
        Text.splitOn 10 file' = front ++ t :: back → Idle (sectionAfter [] front) t →
          load file' = ((load file).1, (load file).2.map (Fault.renumber (movedTo front.length))) := by
  refine ⟨load_ok_iff, load_of_taken, fun before e after hlines hbefore he => ?_,
    fun file' front t back hlines hlines' hidle => ?_⟩
  · obtain ⟨key, hname, hload⟩ := load_of_rejected hlines hbefore he
    refine ⟨⟨key, e.line⟩, hload, hname, rfl, ?_⟩
    rw [Fault.message, hname]
  · rw [load, entries_insert hlines hlines' hidle, applyAll_renumber]
    rfl

/-- A file in which every kind of line stands: a key outside of all sections, a heading, a heading that is
not closed, a line without a key, a key that is set twice and one that does not take its value. -/
def variedFile : Text :=
  "name = a\n[ dialect ]\nname = b\n[output\n= c\nname = 'd'\nwindow_functions = maybe\nname = e"

/-- The same file with a comment behind its third line. -/
def commentedFile : Text :=
  "name = a\n[ dialect ]\nname = b\n # name = x\n[output\n= c\nname = 'd'\n" ++
    "window_functions = maybe\nname = e"

/-- The second name under the section counts, the third is not reached, and the comment moves the fault. -/
theorem load_means_lines_variedFile :
    effective variedFile =
        [⟨1, "name", "a"⟩, ⟨3, "dialect.name", "b"⟩, ⟨6, "dialect.name", "'d'"⟩] ++
          ⟨7, "dialect.window_functions", "maybe"⟩ :: [⟨8, "dialect.name", "e"⟩] ∧
      load variedFile =
        ({ Settings.unset with dialectName := some "d" }, some ⟨.windowFunctions, 7⟩) ∧
      load commentedFile =
        ({ Settings.unset with dialectName := some "d" }, some ⟨.windowFunctions, 8⟩) := by
  have hlines : effective variedFile =
      [⟨1, "name", "a"⟩, ⟨3, "dialect.name", "b"⟩, ⟨6, "dialect.name", "'d'"⟩] ++
        ⟨7, "dialect.window_functions", "maybe"⟩ :: [⟨8, "dialect.name", "e"⟩] := by decide
  obtain ⟨-, -, hrejected, hinsert⟩ := load_means_lines variedFile
  obtain ⟨⟨key, line⟩, hload, hkey, rfl, -⟩ := hrejected _ _ _ hlines (by decide) (by decide)
  obtain rfl : key = .windowFunctions :=
    Option.some.inj ((Key.ofName?_eq_some_iff.mpr hkey.symm).symm.trans (by decide))
  have hload : load variedFile =
      ({ Settings.unset with dialectName := some "d" }, some ⟨.windowFunctions, 7⟩) :=
    hload.trans (by decide)
  have hmoved := hinsert commentedFile ["name = a", "[ dialect ]", "name = b"] " # name = x"
    ["[output", "= c", "name = 'd'", "window_functions = maybe", "name = e"]
    (by decide) (by decide) (Or.inr (Or.inl (by decide)))
  rw [hload] at hmoved
  exact ⟨hlines, hload, hmoved⟩

end Config

end SqlPipeline.Cli
