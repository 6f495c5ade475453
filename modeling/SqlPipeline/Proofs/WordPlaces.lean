import SqlPipeline.Proofs.Grammar
import SqlPipeline.Proofs.Pieces

/-!
# What a word means where it stands

Most tokens mean the same everywhere. A word does not: it may be a column, a constant,
a keyword, a function, a part of a type or a field. Where types and fields stand can be
said of the tokens before the word alone, without walking over them: `Expr.TypePlace`
and `Expr.FieldPlace`. The walk agrees with that at each token, so its pieces can be
read off the text: between the tokens the blanks are copied, and each token shows
either itself or the constant that it stands for.

The definitions go round once. A cast opens a group of its own kind only if the word is
not itself a type or a field, and that is a question about fewer tokens.
-/

namespace SqlPipeline

namespace Token

/-! ## Balanced tokens -/

variable {before front block inner ts us : List Token} {token opening closing : Token}

theorem balanced_nil : Balanced [] := by
  refine ⟨?_, rfl⟩
  intro front hfront
  rw [List.prefix_nil.mp hfront]
  exact Nat.le_refl _

/-- A front of two rows is a front of the first, or all of it and a front of the second. -/
theorem front_append_cases (h : front <+: ts ++ us) :
    front <+: ts ∨ ∃ rest, rest <+: us ∧ front = ts ++ rest := by
  rcases List.prefix_or_prefix_of_prefix h (List.prefix_append ts us) with hfront | ⟨rest, rfl⟩
  · exact Or.inl hfront
  · exact Or.inr ⟨rest, (List.prefix_append_right_inj ts).mp h, rfl⟩

theorem Balanced.append (hts : Balanced ts) (hus : Balanced us) : Balanced (ts ++ us) := by
  refine ⟨?_, by rw [closes_append, opens_append, hts.2, hus.2]⟩
  intro front hfront
  rcases front_append_cases hfront with hfront | ⟨rest, hrest, rfl⟩
  · exact hts.1 front hfront
  · have hle := hus.1 rest hrest
    have heq := hts.2
    rw [closes_append, opens_append]
    omega

/-- What stands before balanced tokens is balanced if all is. -/
theorem Balanced.of_append (h : Balanced (ts ++ us)) (hus : Balanced us) : Balanced ts := by
  refine ⟨fun front hfront => h.1 front (hfront.trans (List.prefix_append ts us)), ?_⟩
  have hall := h.2
  have heq := hus.2
  rw [closes_append, opens_append] at hall
  omega

theorem balanced_singleton (hopen : token.kind ≠ .openParen) (hclose : token.kind ≠ .closeParen) :
    Balanced [token] := by
  have hcounts : closes [token] = 0 ∧ opens [token] = 0 := by simp [hopen, hclose]
  refine ⟨?_, by rw [hcounts.1, hcounts.2]⟩
  intro front hfront
  have hle : closes front ≤ closes [token] := hfront.sublist.countP_le
  omega

theorem Balanced.enclose (h : Balanced inner) (hopen : opening.kind = .openParen)
    (hclose : closing.kind = .closeParen) : Balanced (opening :: (inner ++ [closing])) := by
  refine ⟨?_, ?_⟩
  · intro front hfront
    -- a front is empty, all of it, or the opening bracket and a front of the inside
    rcases List.prefix_cons_iff.mp hfront with rfl | ⟨rest, rfl, hrest⟩
    · exact Nat.le_refl _
    · rcases List.prefix_concat_iff.mp hrest with rfl | hrest
      · have heq := h.2
        simp [hopen, hclose]
        omega
      · have hle := h.1 rest hrest
        simp [hopen]
        omega
  · have heq := h.2
    simp [hopen, hclose]
    omega

/-- A parenthesis that is open before balanced tokens was opened before them. -/
theorem Balanced.open_before (hblock : Balanced block) (hinner : Balanced inner)
    (hopen : opening.kind = .openParen) (h : before ++ block = front ++ opening :: inner) :
    ∃ rest, inner = rest ++ block ∧ before = front ++ opening :: rest ∧ Balanced rest := by
  rcases List.append_eq_append_iff.mp h with ⟨mid, -, hmid⟩ | ⟨mid, hbefore, hmid⟩
  · -- else the balanced tokens would close more than they open, up to this parenthesis
    have hle := hblock.1 mid ⟨_, hmid.symm⟩
    have hall := hblock.2
    have heq := hinner.2
    simp [hmid, hopen] at hall
    omega
  · rcases List.append_eq_cons_iff.mp hmid.symm with ⟨-, hall⟩ | ⟨rest, rfl, hrest⟩
    · have hcount := hblock.2
      have heq := hinner.2
      simp [hall, hopen] at hcount
      omega
    · rw [hrest] at hinner
      exact ⟨rest, hrest, hbefore, hinner.of_append hblock⟩

theorem not_balanced_open (hopen : opening.kind = .openParen) : ¬Balanced (ts ++ [opening]) := by
  intro h
  have hle := h.1 ts (List.prefix_append ts _)
  have hall := h.2
  simp [hopen] at hall
  omega

/-! ## Words -/

/-- The token is one of the words, which are given in capitals. -/
def IsWord (token : Token) (words : List Text) : Prop :=
  token.kind = .identifier ∧ Text.toUpper token.text ∈ words

/-- The word `AS` stands among these tokens, outside all of their groups. -/
def PastAs (inner : List Token) : Prop :=
  ∃ before word after, inner = before ++ word :: after ∧ Balanced before ∧
    word.IsWord [Text.ofString "AS"] ∧ Balanced after

theorem not_pastAs_nil : ¬PastAs [] := by
  rintro ⟨before, word, after, h, -⟩
  cases before <;> cases h

theorem pastAs_append_singleton (hopen : token.kind ≠ .openParen)
    (hclose : token.kind ≠ .closeParen) :
    PastAs (inner ++ [token]) ↔
      PastAs inner ∨ (Balanced inner ∧ token.IsWord [Text.ofString "AS"]) := by
  constructor
  · rintro ⟨before, word, after, h, hbefore, hword, hafter⟩
    -- the word is the new token itself, or the token stands behind it
    rcases List.eq_nil_or_concat after with rfl | ⟨after, last, rfl⟩
    · obtain ⟨rfl, rfl⟩ := List.append_singleton_inj.mp h
      exact Or.inr ⟨hbefore, hword⟩
    · rw [List.concat_eq_append] at h hafter
      rw [← List.cons_append, ← List.append_assoc] at h
      obtain ⟨rfl, rfl⟩ := List.append_singleton_inj.mp h
      exact Or.inl ⟨before, word, after, rfl, hbefore, hword,
        hafter.of_append (balanced_singleton hopen hclose)⟩
  · rintro (⟨before, word, after, rfl, hbefore, hword, hafter⟩ | ⟨hinner, hword⟩)
    · exact ⟨before, word, after ++ [token], by simp, hbefore, hword,
        hafter.append (balanced_singleton hopen hclose)⟩
    · exact ⟨inner, token, [], rfl, hinner, hword, balanced_nil⟩

/-- What stands inside a group does not count outside of it. -/
theorem pastAs_append_group (hinner : Balanced inner) (hopen : opening.kind = .openParen)
    (hclose : closing.kind = .closeParen) :
    PastAs (ts ++ opening :: (inner ++ [closing])) ↔ PastAs ts := by
  have hblock := hinner.enclose hopen hclose
  constructor
  · rintro ⟨before, word, after, h, hbefore, hword, hafter⟩
    rcases List.append_eq_append_iff.mp h with ⟨mid, rfl, hmid⟩ | ⟨mid, rfl, hmid⟩
    · -- the word would stand inside the group, and then the parenthesis before it is open
      rcases List.append_eq_cons_iff.mp hmid.symm with ⟨-, hword'⟩ | ⟨rest, rfl, hrest⟩
      · obtain ⟨rfl, -⟩ := List.cons.inj hword'
        rw [hword.1] at hopen
        cases hopen
      · have hle : closes rest ≤ opens rest := by
          rcases List.prefix_concat_iff.mp ⟨_, hrest.symm⟩ with rfl | hfront
          · simp at hrest
          · exact hinner.1 rest hfront
        have hts := hbefore.1 ts (List.prefix_append ts _)
        have hall := hbefore.2
        simp [hopen] at hall
        omega
    · rcases List.append_eq_cons_iff.mp hmid.symm with ⟨-, hword'⟩ | ⟨rest, rfl, hrest⟩
      · obtain ⟨rfl, -⟩ := List.cons.inj hword'
        rw [hword.1] at hopen
        cases hopen
      · rw [hrest] at hafter
        exact ⟨before, word, rest, rfl, hbefore, hword, hafter.of_append hblock⟩
  · rintro ⟨before, word, after, rfl, hbefore, hword, hafter⟩
    exact ⟨before, word, after ++ opening :: (inner ++ [closing]), by simp, hbefore, hword,
      hafter.append hblock⟩

end Token

open Token

namespace Expr

/-! ## Places -/

/-- After the head, one of the words and a parenthesis open a group that is still open; the inner tokens
stand in it. -/
def Enters (words : List Text) (head inner before : List Token) : Prop :=
  ∃ call opening, before = head ++ call :: opening :: inner ∧ call.IsWord words ∧
    opening.kind = .openParen ∧ Balanced inner

/-- A cast after the head has come to its type. -/
def TypeAfter (head before : List Token) : Prop :=
  ∃ inner, Enters GroupKind.cast.words head inner before ∧ PastAs inner

/-- An extraction was just opened after the head. -/
def FieldAfter (head before : List Token) : Prop := Enters GroupKind.extract.words head [] before

/-- The next token belongs to a type or is a field: it stands in a cast or an extraction that was opened
by a word which is neither. -/
def Reserved (before : List Token) : Prop :=
  ∃ head, ∃ _ : head.length < before.length,
    (TypeAfter head before ∨ FieldAfter head before) ∧ ¬Reserved head
termination_by before.length

/-- After these tokens the words belong to a type. -/
def TypePlace (before : List Token) : Prop := ∃ head, TypeAfter head before ∧ ¬Reserved head

/-- After these tokens a field is named. -/
def FieldPlace (before : List Token) : Prop := ∃ head, FieldAfter head before ∧ ¬Reserved head

/-- These tokens stand in a group that one of the words opened, and in none inside of it. -/
def InGroup (words : List Text) (before : List Token) : Prop :=
  ∃ head inner, Enters words head inner before ∧ ¬Reserved head

/-- A parenthesis after these tokens belongs to one of the words. -/
def Calls (words : List Text) (before : List Token) : Prop :=
  ∃ head call, before = head ++ [call] ∧ call.IsWord words ∧ ¬Reserved head

variable {allowInput : Bool} {words : List Text} {before block head inner tokens : List Token}
  {token opening closing : Token} {p p' : Position} {beforeParen : Bool} {piece : Piece}

theorem Enters.length_lt (h : Enters words head inner before) : head.length < before.length := by
  obtain ⟨call, opening, rfl, -⟩ := h
  simp

theorem Enters.balanced (h : Enters words head inner before) : Balanced inner := by
  obtain ⟨call, opening, -, -, -, hinner⟩ := h
  exact hinner

theorem reserved_iff : Reserved before ↔ TypePlace before ∨ FieldPlace before := by
  -- the bound on the length is there for the recursion alone
  rw [Reserved]
  constructor
  · rintro ⟨head, -, hafter | hafter, hfree⟩
    · exact Or.inl ⟨head, hafter, hfree⟩
    · exact Or.inr ⟨head, hafter, hfree⟩
  · rintro (⟨head, ⟨inner, henters, hpast⟩, hfree⟩ | ⟨head, henters, hfree⟩)
    · exact ⟨head, henters.length_lt, Or.inl ⟨inner, henters, hpast⟩, hfree⟩
    · exact ⟨head, henters.length_lt, Or.inr henters, hfree⟩

/-- Balanced tokens stay in the group. -/
theorem enters_append (hblock : Balanced block) :
    Enters words head inner (before ++ block) ↔
      ∃ rest, inner = rest ++ block ∧ Enters words head rest before := by
  constructor
  · rintro ⟨call, opening, h, hcall, hopen, hinner⟩
    have hsplit : before ++ block = (head ++ [call]) ++ opening :: inner := by simpa using h
    obtain ⟨rest, rfl, hbefore, hrest⟩ := hblock.open_before hinner hopen hsplit
    exact ⟨rest, rfl, call, opening, by simpa using hbefore, hcall, hopen, hrest⟩
  · rintro ⟨rest, rfl, call, opening, rfl, hcall, hopen, hrest⟩
    exact ⟨call, opening, by simp, hcall, hopen, hrest.append hblock⟩

/-- A parenthesis that was just opened has nothing inside. -/
theorem enters_append_open (hopen : opening.kind = .openParen) :
    Enters words head inner (before ++ [opening]) ↔
      inner = [] ∧ ∃ call, before = head ++ [call] ∧ call.IsWord words := by
  constructor
  · rintro ⟨call, opening', h, hcall, hopen', hinner⟩
    rcases List.eq_nil_or_concat inner with rfl | ⟨rest, last, rfl⟩
    · rw [List.append_cons head] at h
      obtain ⟨rfl, rfl⟩ := List.append_singleton_inj.mp h
      exact ⟨rfl, call, rfl, hcall⟩
    · rw [List.concat_eq_append] at h hinner
      rw [← List.cons_append, ← List.cons_append, ← List.append_assoc] at h
      obtain ⟨-, rfl⟩ := List.append_singleton_inj.mp h
      exact absurd hinner (not_balanced_open hopen)
  · rintro ⟨rfl, call, rfl, hcall⟩
    exact ⟨call, opening, by simp, hcall, hopen, balanced_nil⟩

theorem inGroup_append (hblock : Balanced block) :
    InGroup words (before ++ block) ↔ InGroup words before := by
  constructor
  · rintro ⟨head, inner, henters, hfree⟩
    obtain ⟨rest, -, hrest⟩ := (enters_append hblock).mp henters
    exact ⟨head, rest, hrest, hfree⟩
  · rintro ⟨head, inner, henters, hfree⟩
    exact ⟨head, inner ++ block, (enters_append hblock).mpr ⟨inner, rfl, henters⟩, hfree⟩

theorem inGroup_append_open (hopen : opening.kind = .openParen) :
    InGroup words (before ++ [opening]) ↔ Calls words before := by
  constructor
  · rintro ⟨head, inner, henters, hfree⟩
    obtain ⟨-, call, hbefore, hcall⟩ := (enters_append_open hopen).mp henters
    exact ⟨head, call, hbefore, hcall, hfree⟩
  · rintro ⟨head, call, hbefore, hcall, hfree⟩
    exact ⟨head, [], (enters_append_open hopen).mpr ⟨rfl, call, hbefore, hcall⟩, hfree⟩

theorem typePlace_append_singleton (hopen : token.kind ≠ .openParen)
    (hclose : token.kind ≠ .closeParen) :
    TypePlace (before ++ [token]) ↔
      TypePlace before ∨ (InGroup GroupKind.cast.words before ∧ token.IsWord [Text.ofString "AS"]) := by
  have hblock := balanced_singleton hopen hclose
  constructor
  · rintro ⟨head, ⟨inner, henters, hpast⟩, hfree⟩
    obtain ⟨rest, rfl, hrest⟩ := (enters_append hblock).mp henters
    rcases (pastAs_append_singleton hopen hclose).mp hpast with hpast | ⟨-, hword⟩
    · exact Or.inl ⟨head, ⟨rest, hrest, hpast⟩, hfree⟩
    · exact Or.inr ⟨⟨head, rest, hrest, hfree⟩, hword⟩
  · rintro (⟨head, ⟨inner, henters, hpast⟩, hfree⟩ | ⟨⟨head, inner, henters, hfree⟩, hword⟩)
    · have hpast' := (pastAs_append_singleton hopen hclose).mpr (Or.inl hpast)
      have henters' := (enters_append hblock).mpr ⟨inner, rfl, henters⟩
      exact ⟨head, ⟨inner ++ [token], henters', hpast'⟩, hfree⟩
    · have hpast' := (pastAs_append_singleton hopen hclose).mpr (Or.inr ⟨henters.balanced, hword⟩)
      have henters' := (enters_append hblock).mpr ⟨inner, rfl, henters⟩
      exact ⟨head, ⟨inner ++ [token], henters', hpast'⟩, hfree⟩

theorem typePlace_append_group (hinner : Balanced inner) (hopen : opening.kind = .openParen)
    (hclose : closing.kind = .closeParen) :
    TypePlace (before ++ opening :: (inner ++ [closing])) ↔ TypePlace before := by
  have hblock := hinner.enclose hopen hclose
  constructor
  · rintro ⟨head, ⟨inner', henters, hpast⟩, hfree⟩
    obtain ⟨rest, rfl, hrest⟩ := (enters_append hblock).mp henters
    exact ⟨head, ⟨rest, hrest, (pastAs_append_group hinner hopen hclose).mp hpast⟩, hfree⟩
  · rintro ⟨head, ⟨rest, henters, hpast⟩, hfree⟩
    exact ⟨head, ⟨_, (enters_append hblock).mpr ⟨rest, rfl, henters⟩,
      (pastAs_append_group hinner hopen hclose).mpr hpast⟩, hfree⟩

theorem not_typePlace_open (hopen : opening.kind = .openParen) : ¬TypePlace (before ++ [opening]) := by
  rintro ⟨head, ⟨inner, henters, hpast⟩, -⟩
  obtain ⟨rfl, -⟩ := (enters_append_open hopen).mp henters
  exact not_pastAs_nil hpast

theorem fieldPlace_append_open (hopen : opening.kind = .openParen) :
    FieldPlace (before ++ [opening]) ↔ Calls GroupKind.extract.words before := by
  rw [← inGroup_append_open hopen]
  constructor
  · rintro ⟨head, henters, hfree⟩
    exact ⟨head, [], henters, hfree⟩
  · rintro ⟨head, inner, henters, hfree⟩
    obtain ⟨rfl, -⟩ := (enters_append_open hopen).mp henters
    exact ⟨head, henters, hfree⟩

theorem not_fieldPlace (hopen : token.kind ≠ .openParen) : ¬FieldPlace (before ++ [token]) := by
  rintro ⟨head, ⟨call, opening, h, -, hopening, -⟩, -⟩
  rw [List.append_cons head] at h
  obtain ⟨-, rfl⟩ := List.append_singleton_inj.mp h
  exact hopen hopening

theorem calls_append_singleton :
    Calls words (before ++ [token]) ↔ token.IsWord words ∧ ¬Reserved before := by
  constructor
  · rintro ⟨head, call, h, hcall, hfree⟩
    obtain ⟨rfl, rfl⟩ := List.append_singleton_inj.mp h
    exact ⟨hcall, hfree⟩
  · rintro ⟨hword, hfree⟩
    exact ⟨before, token, rfl, hword, hfree⟩

/-! ## The walk -/

/-- The group is the one in which the next token stands. -/
structure Describes (group : Group) (before : List Token) : Prop where
  kind : ∀ kind, kind ≠ .plain → (group.kind = kind ↔ InGroup kind.words before)
  typeWords : group.typeWords = true ↔ TypePlace before

/-- The groups are those in which the open parentheses stand, from the innermost on. -/
def Stacked : List Token → List Group → Prop
  | _, [] => True
  | before, group :: outer =>
    ∃ head opening inner, before = head ++ opening :: inner ∧ opening.kind = .openParen ∧
      Balanced inner ∧ Describes group head ∧ group.fieldWord = false ∧ Stacked head outer

/-- The walk knows where the next token stands. What a parenthesis would open it knows only before one. -/
structure At (before : List Token) (p : Position) (beforeParen : Bool) : Prop where
  group : Describes p.group before
  field : p.group.fieldWord = true ↔ FieldPlace before
  outer : Stacked before p.outer
  next : beforeParen = true → ∀ kind, kind ≠ .plain → (p.next = kind ↔ Calls kind.words before)

theorem at_start (beforeParen : Bool) : At [] .start beforeParen := by
  -- nothing has been opened before the first token
  have henters : ∀ words head inner, ¬Enters words head inner [] :=
    fun _ _ _ h => absurd h.length_lt (Nat.not_lt_zero _)
  refine ⟨⟨?_, ?_⟩, ?_, trivial, ?_⟩
  · intro kind hkind
    refine ⟨fun h => absurd h.symm hkind, ?_⟩
    rintro ⟨head, inner, h, -⟩
    exact absurd h (henters _ _ _)
  · refine ⟨nofun, ?_⟩
    rintro ⟨head, ⟨inner, h, -⟩, -⟩
    exact absurd h (henters _ _ _)
  · refine ⟨nofun, ?_⟩
    rintro ⟨head, h, -⟩
    exact absurd h (henters _ _ _)
  · intro _ kind hkind
    refine ⟨fun h => absurd h.symm hkind, ?_⟩
    rintro ⟨head, call, h, -⟩
    simp at h

theorem At.reserved_iff (h : At before p beforeParen) :
    Reserved before ↔ (p.group.typeWords || p.group.fieldWord) = true := by
  rw [Expr.reserved_iff, Bool.or_eq_true, h.group.typeWords, h.field]

theorem Stacked.append {outer : List Group} (h : Stacked before outer) (hblock : Balanced block) :
    Stacked (before ++ block) outer := by
  cases outer with
  | nil => trivial
  | cons group outer =>
    obtain ⟨head, opening, inner, rfl, hopen, hinner, hgroup⟩ := h
    exact ⟨head, opening, inner ++ block, by simp, hopen, hinner.append hblock, hgroup⟩

/-- Only a name decides what a parenthesis opens. -/
theorem plain_eq_iff_calls {kind : GroupKind} (hplain : kind ≠ .plain)
    (h : token.kind ≠ .identifier ∨ Text.toUpper token.text ∉ kind.words ∨ Reserved before) :
    GroupKind.plain = kind ↔ Calls kind.words (before ++ [token]) := by
  refine ⟨fun heq => absurd heq.symm hplain, fun hcalls => ?_⟩
  obtain ⟨⟨hk, hword⟩, hfree⟩ := calls_append_singleton.mp hcalls
  rcases h with h | h | h
  · exact absurd hk h
  · exact absurd hword h
  · exact absurd h hfree

theorem At.opened (h : At before p true) (hopen : opening.kind = .openParen) :
    At (before ++ [opening]) ⟨.opened p.next, p.pass.group :: p.outer, .plain⟩ beforeParen := by
  -- the word before the parenthesis has decided what it opens
  have hnext := h.next rfl
  refine ⟨⟨?_, ?_⟩, ?_, ?_, ?_⟩
  · intro kind hplain
    rw [inGroup_append_open hopen]
    exact hnext kind hplain
  · exact ⟨nofun, fun htype => absurd htype (not_typePlace_open hopen)⟩
  · rw [fieldPlace_append_open hopen]
    exact beq_iff_eq.trans (hnext .extract nofun)
  · have hgroup : Describes p.pass.group before := ⟨h.group.kind, h.group.typeWords⟩
    exact ⟨before, opening, [], rfl, hopen, balanced_nil, hgroup, rfl, h.outer⟩
  · exact fun _ kind hplain => plain_eq_iff_calls hplain (Or.inl (by simp [hopen]))

/-- A group that is closed counts for nothing in the one around it. -/
theorem At.closed {group : Group} {outer : List Group} (h : Stacked before (group :: outer))
    (hclose : closing.kind = .closeParen) :
    At (before ++ [closing]) ⟨group, outer, .plain⟩ beforeParen := by
  have hnext : beforeParen = true → ∀ kind, kind ≠ .plain →
      (GroupKind.plain = kind ↔ Calls kind.words (before ++ [closing])) :=
    fun _ kind hplain => plain_eq_iff_calls hplain (Or.inl (by simp [hclose]))
  have hno : ¬FieldPlace (before ++ [closing]) := not_fieldPlace (by simp [hclose])
  -- the closed group is one balanced block, so its places are those before it was opened
  obtain ⟨head, opening, inner, rfl, hopen, hinner, hgroup, hfield, hstack⟩ := h
  have hblock := hinner.enclose hopen hclose
  rw [List.append_assoc, List.cons_append] at hno hnext ⊢
  refine ⟨⟨?_, ?_⟩, ?_, hstack.append hblock, hnext⟩
  · intro kind hplain
    rw [inGroup_append hblock]
    exact hgroup.kind kind hplain
  · rw [typePlace_append_group hinner hopen hclose]
    exact hgroup.typeWords
  · rw [hfield]
    exact ⟨nofun, fun hyes => absurd hyes hno⟩

/-- A token that opens and closes nothing leaves the group as it is, up to the word `AS`. -/
theorem At.beside {q : Position} {parenHere : Bool} (h : At before p parenHere)
    (hopen : token.kind ≠ .openParen) (hclose : token.kind ≠ .closeParen)
    (houter : q.outer = p.outer) (hkind : q.group.kind = p.group.kind)
    (hfield : q.group.fieldWord = false)
    (htype : q.group.typeWords = true ↔
      p.group.typeWords = true ∨ (p.group.kind = .cast ∧ token.IsWord [Text.ofString "AS"]))
    (hnext : beforeParen = true → ∀ kind, kind ≠ .plain →
      (q.next = kind ↔ Calls kind.words (before ++ [token]))) :
    At (before ++ [token]) q beforeParen := by
  -- a token that is no bracket leaves every open group open
  have hblock := balanced_singleton hopen hclose
  refine ⟨⟨?_, ?_⟩, ?_, ?_, hnext⟩
  · intro kind hplain
    rw [hkind, inGroup_append hblock]
    exact h.group.kind kind hplain
  · rw [htype, typePlace_append_singleton hopen hclose, h.group.typeWords, h.group.kind .cast nofun]
  · rw [hfield]
    exact ⟨nofun, fun hyes => absurd hyes (not_fieldPlace hopen)⟩
  · rw [houter]
    exact h.outer.append hblock

theorem At.name {parenHere : Bool} (h : At before p parenHere) (hk : token.kind = .identifier) :
    At (before ++ [token]) (readName p token.text beforeParen).1 beforeParen := by
  have hopen : token.kind ≠ .openParen := by simp [hk]
  have hclose : token.kind ≠ .closeParen := by simp [hk]
  by_cases hreserved : (p.group.typeWords || p.group.fieldWord) = true
  · have hplace := h.reserved_iff.mpr hreserved
    rw [readName, if_pos hreserved]
    refine h.beside hopen hclose rfl rfl rfl ?_ ?_
    · refine ⟨Or.inl, fun hor => hor.elim id ?_⟩
      rintro ⟨hcast, -⟩
      -- a field stands in an extraction, so this is no cast
      rcases Expr.reserved_iff.mp hplace with htype | ⟨head, henters, hfree⟩
      · exact h.group.typeWords.mpr htype
      · have hextract := (h.group.kind .extract nofun).mpr ⟨head, [], henters, hfree⟩
        rw [hcast] at hextract
        cases hextract
    · exact fun _ kind hplain => plain_eq_iff_calls hplain (Or.inr (Or.inr hplace))
  · -- a free word: it opens the type if it is `AS`, and a group if it is called
    have hfree : ¬Reserved before := fun hplace => hreserved (h.reserved_iff.mp hplace)
    have htypeWords : p.group.typeWords = false := by simp_all
    rw [readName, if_neg hreserved]
    refine h.beside hopen hclose rfl rfl rfl ?_ ?_
    · simp [htypeWords, IsWord, hk]
    · intro hparen kind hplain
      dsimp only
      cases hconstant : wordConstant? token.text with
      | some value =>
        rw [Option.isNone_some, Bool.and_false, if_neg Bool.false_ne_true]
        exact plain_eq_iff_calls hplain (Or.inr (Or.inl (constant_not_mem_words hconstant kind)))
      | none =>
        rw [hparen, Option.isNone_none, Bool.and_true, if_pos rfl, ofCall_eq_iff hplain,
          calls_append_singleton]
        exact ⟨fun hword => ⟨⟨hk, hword⟩, hfree⟩, fun hcalls => hcalls.1.2⟩

/-- **One token**: the walk still knows where it stands. -/
theorem At.step (h : At before p (token.kind == .openParen))
    (hs : TokenStep p token beforeParen p' piece) : At (before ++ [token]) p' beforeParen := by
  cases hs with
  | opening hk =>
    rw [hk] at h
    exact h.opened hk
  | closing hk houter =>
    have hstack := h.outer
    rw [houter] at hstack
    exact At.closed hstack hk
  | name hk => exact h.name hk
  | plain meant =>
    -- a piece taken over as it stands is no name, so it is no AS
    have hk : token.kind ≠ .identifier := by cases meant <;> simp_all
    refine h.beside meant.not_paren.1 meant.not_paren.2 rfl rfl rfl ?_ ?_
    · exact ⟨Or.inl, fun hor => hor.elim id fun hword => absurd hword.2.1 hk⟩
    · exact fun _ kind hplain => plain_eq_iff_calls hplain (Or.inl hk)

/-! ## What the tokens show -/

/-- Where the last of the tokens ends. -/
def lastStop (tokens : List Token) : Nat := (tokens.getLast?.map Token.stop).getD 0

/-- The bytes between a token and the one before it, or the start of the text. -/
def gap (source : Text) (before : List Token) (token : Token) : Text :=
  (source.drop (lastStop before)).take (token.pos - lastStop before)

open Classical in
/-- What a token shows after those before it: a constant in plain notation, or its own text. -/
noncomputable def shown (before : List Token) (token : Token) : Text :=
  match token.kind with
  | .string => (Literal.string token.text).display
  | .number => (numberConstant? token.text).elim token.text Literal.display
  | .identifier =>
    if Reserved before then token.text else (wordConstant? token.text).elim token.text Literal.display
  | _ => token.text

/-- The text that the tokens show, each after its gap. -/
noncomputable def rendering (source : Text) : List Token → List Token → Text
  | _, [] => []
  | before, token :: after =>
    gap source before token ++ shown before token ++ rendering source (before ++ [token]) after

/-- The word is a column: it stands for no constant, is no keyword, no function, no type and no field. -/
structure IsColumn (before : List Token) (token : Token) (after : List Token) : Prop where
  notConstant : Text.toUpper token.text ∉ constantWords
  notKeyword : Text.toUpper token.text ∉ keywords
  notCalled : opensParen after = false
  notType : ¬TypePlace before
  notField : ¬FieldPlace before

/-- Each token has a piece, which shows what the token does and is a column where a word is one. Nothing
but blanks stands between the tokens and after the last of them. -/
inductive Faithful (source : Text) : List Token → List Token → List Piece → Prop where
  | done {before : List Token} (blank : ∀ b ∈ source.drop (lastStop before), Text.isBlank b) :
      Faithful source before [] []
  | next {before after : List Token} {token : Token} {piece : Piece} {pieces : List Piece}
      (blank : ∀ b ∈ gap source before token, Text.isBlank b)
      (shows : piece.display = shown before token)
      (column : token.kind = .identifier →
        ((∃ name, piece = .var name) ↔ IsColumn before token after))
      (rest : Faithful source (before ++ [token]) after pieces) :
      Faithful source before (token :: after) (piece :: pieces)

/-- The pieces of the tokens, each after its gap. -/
def weave (source : Text) : List Token → List Token → List Piece → List Piece
  | before, token :: after, piece :: pieces =>
    .text (gap source before token) :: piece :: weave source (before ++ [token]) after pieces
  | _, _, _ => []

variable {source : Text} {after : List Token} {pieces : List Piece}

theorem Faithful.display_weave (h : Faithful source before tokens pieces) :
    (weave source before tokens pieces).flatMap Piece.display = rendering source before tokens := by
  induction h with
  | done => rfl
  | next blank shows column rest ih =>
    rw [weave, rendering, List.flatMap_cons, List.flatMap_cons, ih, shows, List.append_assoc]
    rfl

theorem Faithful.columns_weave (h : Faithful source before tokens pieces) :
    (weave source before tokens pieces).filterMap Piece.column? = pieces.filterMap Piece.column? := by
  induction h with
  | done => rfl
  | next blank shows column rest ih =>
    rw [weave, List.filterMap_cons_none rfl, List.filterMap_cons, List.filterMap_cons, ih]

theorem shown_eq_text (h : token.kind ∉ [.identifier, .string, .number]) :
    shown before token = token.text := by
  simp only [List.mem_cons, List.not_mem_nil, or_false, not_or] at h
  obtain ⟨hword, hstring, hnumber⟩ := h
  unfold shown
  split <;> first | contradiction | rfl

/-- A name in a type or a field is copied, and otherwise it has its own meaning. -/
theorem At.readName_piece {parenHere : Bool} (h : At before p parenHere) (name : Text)
    (beforeParen : Bool) :
    (Reserved before → (readName p name beforeParen).2 = .text name) ∧
      (¬Reserved before → (readName p name beforeParen).2 = namePiece name beforeParen) := by
  rw [h.reserved_iff]
  constructor
  · intro hreserved
    rw [readName, if_pos hreserved]
  · intro hfree
    rw [readName, if_neg hfree]

/-- The piece of a token shows what the token does. -/
theorem TokenStep.shows {parenHere : Bool} (hs : TokenStep p token beforeParen p' piece)
    (h : At before p parenHere) (hspelled : token.Spelled) : piece.display = shown before token := by
  cases hs with
  | opening hk =>
    rw [shown_eq_text (by simp [hk]), hspelled.1 hk]
    rfl
  | closing hk houter =>
    rw [shown_eq_text (by simp [hk]), hspelled.2.1 hk]
    rfl
  | name hk =>
    obtain ⟨hcopied, hmeant⟩ := h.readName_piece token.text beforeParen
    simp only [shown, hk]
    by_cases hreserved : Reserved before
    · rw [if_pos hreserved, hcopied hreserved]
      rfl
    · rw [if_neg hreserved, hmeant hreserved, display_namePiece]
  | plain meant =>
    cases meant with
    | quoted hk => rw [shown_eq_text (by simp [hk])]; rfl
    | string hk => simp only [shown, hk]; rfl
    | number hk hvalue => simp only [shown, hk, hvalue]; rfl
    | placeholder hk =>
      rw [shown_eq_text (by simp [hk]), hspelled.2.2 hk]
      rfl
    | comma hk => rw [shown_eq_text (by simp [hk])]; rfl
    | operator hk => rw [shown_eq_text (by simp [hk])]; rfl

/-- The piece of a word is a column exactly where the word is one. -/
theorem TokenStep.column {parenHere : Bool} (hs : TokenStep p token (opensParen after) p' piece)
    (h : At before p parenHere) (hk : token.kind = .identifier) :
    (∃ name, piece = .var name) ↔ IsColumn before token after := by
  have hpiece : piece = (readName p token.text (opensParen after)).2 := by
    cases hs with
    | name => rfl
    | opening hk' => simp [hk] at hk'
    | closing hk' => simp [hk] at hk'
    | plain meant => cases meant <;> simp_all
  obtain ⟨hcopied, hmeant⟩ := h.readName_piece token.text (opensParen after)
  rw [hpiece]
  -- a reserved place copies the word; elsewhere it depends on the word alone
  by_cases hreserved : Reserved before
  · rw [hcopied hreserved]
    refine ⟨nofun, fun hcolumn => ?_⟩
    exact absurd (reserved_iff.mp hreserved) (not_or.mpr ⟨hcolumn.notType, hcolumn.notField⟩)
  · rw [hmeant hreserved, namePiece_eq_var_iff]
    obtain ⟨htype, hfield⟩ := not_or.mp (fun hplace => hreserved (reserved_iff.mpr hplace))
    exact ⟨fun ⟨hconstant, hkeyword, hcalled⟩ => ⟨hconstant, hkeyword, hcalled, htype, hfield⟩,
      fun hcolumn => ⟨hcolumn.notConstant, hcolumn.notKeyword, hcolumn.notCalled⟩⟩

/-! ## The whole text -/

theorem readTokens_cons_ok {result : List Piece} {last : Nat}
    (h : readTokens allowInput source p last (token :: tokens) = .ok result) :
    ∃ p' piece others, readToken allowInput p token (opensParen tokens) = .ok (p', piece) ∧
      readTokens allowInput (source.drop (token.stop - last)) p' token.stop tokens = .ok others ∧
      result = .text (source.take (token.pos - last)) :: piece :: others := by
  rw [readTokens] at h
  split at h
  · cases h
  · rename_i p' piece hread
    split at h
    · cases h
    · rename_i others hothers
      cases h
      exact ⟨p', piece, others, hread, hothers, rfl⟩

/-- **Reading the tokens from a place that the walk knows** gives each of them its piece. -/
theorem readTokens_faithful {result : List Piece} {last : Nat} {rest : Text}
    (ht : Tiled last rest tokens) (hspelled : ∀ token ∈ tokens, token.Spelled)
    (hat : At before p (opensParen tokens)) (hlast : lastStop before = last)
    (hrest : source.drop last = rest)
    (h : readTokens allowInput rest p last tokens = .ok result) :
    ∃ pieces, Faithful source before tokens pieces ∧ result = weave source before tokens pieces := by
  -- the tokens read so far grow by one at each step, and with them the place that is known
  induction ht generalizing before p result with
  | @done last blanks blank =>
    have hresult : result = [] := by
      rw [readTokens] at h
      split at h <;> cases h
      rfl
    refine ⟨[], .done ?_, hresult⟩
    rw [hlast, hrest]
    exact blank
  | @next last space spelled rest token tokens blank nonempty pos_eq stop_eq covered ih =>
    obtain ⟨p', piece, others, hread, hothers, rfl⟩ := readTokens_cons_ok h
    have hstep := readToken_ok hread
    have hspace : (space ++ spelled ++ rest).take (token.pos - last) = space := by
      rw [pos_eq, Nat.add_sub_cancel_left, List.append_assoc, List.take_left]
    have hgap : gap source before token = space := by rw [gap, hlast, hrest, hspace]
    have hdrop : source.drop token.stop = rest := by
      have hsum : token.stop = last + (token.stop - last) := by omega
      rw [hsum, ← List.drop_drop, hrest, drop_past pos_eq stop_eq]
    have hlast' : lastStop (before ++ [token]) = token.stop := by simp [lastStop]
    rw [drop_past pos_eq stop_eq] at hothers
    obtain ⟨hspelled, hothersSpelled⟩ := List.forall_mem_cons.mp hspelled
    obtain ⟨pieces, hfaithful, rfl⟩ := ih hothersSpelled (hat.step hstep) hlast' hdrop hothers
    refine ⟨piece :: pieces, .next ?_ (hstep.shows hat hspelled) (hstep.column hat) hfaithful, ?_⟩
    · rw [hgap]
      exact blank
    · rw [weave, hspace, hgap]

/--
**What is read is faithful to the text.**

The display of the expression is the text of its tokens, each after the blanks that stand before it in the
source: strings, numbers and the words for constants are shown in plain notation, a quoted name is shown
without its quotes, and all else as it stands. Only blanks after the last token are lost. A word that is
not quoted is a column of the expression exactly if it is no constant, no keyword, not followed by a
parenthesis, and in the place of neither a type nor a field.
-/
theorem read_faithful {source : Text} {e : Expr} (h : read source allowInput = .ok e) :
    e.display = rendering source [] (scan source) ∧
      ∃ pieces, Faithful source [] (scan source) pieces ∧
        e = ofPieces (weave source [] (scan source) pieces) ∧
        e.pieces.filterMap Piece.column? = pieces.filterMap Piece.column? := by
  have hscan : scan source ≠ [] := by
    intro hempty
    rw [read_of_scan_eq_nil hempty] at h
    cases h
  rw [read_of_scan_ne_nil hscan] at h
  cases hresult : readTokens allowInput source .start 0 (scan source) with
  | error error =>
    rw [hresult] at h
    cases h
  | ok result =>
    rw [hresult] at h
    cases h
    -- the tokens are read one by one, from a start at which no group is open
    obtain ⟨pieces, hfaithful, rfl⟩ := readTokens_faithful (tiled_scan source)
      (fun _ => spelled_of_mem_scanFrom) (at_start _) rfl rfl hresult
    refine ⟨?_, pieces, hfaithful, rfl, ?_⟩
    · rw [display_ofPieces, hfaithful.display_weave]
    · rw [filterMap_column?_ofPieces, hfaithful.columns_weave]

/-- A field, a type with a group of its own, and columns around and inside of them. -/
def fieldAndType : Text := "extract(y from d) or cast(a AS null(b)) "

theorem read_faithful_fieldAndType :
    ∃ e, read fieldAndType false = .ok e ∧
      e.pieces = [.text "extract(y from ", .var "d", .text ") or cast(", .var "a",
        .text " AS null(", .var "b", .text "))"] ∧
      e.display = rendering fieldAndType [] (scan fieldAndType) ∧
      ∃ pieces, Faithful fieldAndType [] (scan fieldAndType) pieces ∧
        e = ofPieces (weave fieldAndType [] (scan fieldAndType) pieces) ∧
        pieces.filterMap Piece.column? = ["d", "a", "b"].map Text.ofString := by
  have hscan : scan fieldAndType =
      [⟨.identifier, "extract", 0, 7⟩, ⟨.openParen, "(", 7, 8⟩, ⟨.identifier, "y", 8, 9⟩,
        ⟨.identifier, "from", 10, 14⟩, ⟨.identifier, "d", 15, 16⟩, ⟨.closeParen, ")", 16, 17⟩,
        ⟨.identifier, "or", 18, 20⟩, ⟨.identifier, "cast", 21, 25⟩, ⟨.openParen, "(", 25, 26⟩,
        ⟨.identifier, "a", 26, 27⟩, ⟨.identifier, "AS", 28, 30⟩, ⟨.identifier, "null", 31, 35⟩,
        ⟨.openParen, "(", 35, 36⟩, ⟨.identifier, "b", 36, 37⟩, ⟨.closeParen, ")", 37, 38⟩,
        ⟨.closeParen, ")", 38, 39⟩] := by decide +kernel
  have h : read fieldAndType false = .ok ⟨[.text "extract(y from ", .var "d", .text ") or cast(",
      .var "a", .text " AS null(", .var "b", .text "))"]⟩ := by
    rw [read, hscan]
    rfl
  obtain ⟨hdisplay, pieces, hfaithful, hpieces, hcolumns⟩ := read_faithful h
  exact ⟨_, h, rfl, hdisplay, pieces, hfaithful, hpieces, hcolumns.symm⟩

end Expr

end SqlPipeline
