import Mathlib.Tactic.ByContra
import SqlPipeline.Expr.Reader

/-!
# Pieces and words

What single pieces and single words amount to, apart from any text they stand in. Two
rows of pieces that are glued the same way are the same expression, so an expression
can be put together from parts that are not normal by themselves. A word in capitals
says whether it is a constant, a keyword or opens a group of its own kind, and no
constant opens one.
-/

namespace SqlPipeline

/-! ## The normal form -/

namespace Piece

/-- A text in front of other pieces is its two parts in front of them. -/
theorem glue_text_append (t u : Text) (rest : List Piece) :
    glue (.text (t ++ u)) rest = glue (.text t) (glue (.text u) rest) := by
  cases u with
  | nil => simp [glue]
  | cons c u =>
    cases t with
    | nil => simp [glue]
    | cons b t =>
      cases rest with
      | nil => simp [glue]
      | cons first rest => cases first <;> simp [glue]

theorem flatMap_display_glue (piece : Piece) (rest : List Piece) :
    (glue piece rest).flatMap display = piece.display ++ rest.flatMap display := by
  fun_cases glue piece rest <;> simp [display]

theorem filterMap_column?_glue (piece : Piece) (rest : List Piece) :
    (glue piece rest).filterMap column? = (piece :: rest).filterMap column? := by
  fun_cases glue piece rest <;> rfl

/-- Gluing a glued piece again is gluing it once, and then the rest. -/
theorem foldr_glue_glue (piece : Piece) (pieces rest : List Piece) :
    (glue piece pieces).foldr glue rest = glue piece (pieces.foldr glue rest) := by
  fun_cases glue piece pieces with
  | case1 => simp [glue]
  | case2 t u others ht =>
    rw [List.foldr_cons, List.foldr_cons, glue_text_append]
  | case3 => rw [List.foldr_cons]

end Piece

namespace Expr

theorem foldr_glue_ofPieces (pieces rest : List Piece) :
    (ofPieces pieces).pieces.foldr Piece.glue rest = pieces.foldr Piece.glue rest := by
  induction pieces with
  | nil => rfl
  | cons piece pieces ih =>
    rw [List.foldr_cons, ← ih]
    exact Piece.foldr_glue_glue _ _ _

theorem display_ofPieces (pieces : List Piece) :
    (ofPieces pieces).display = pieces.flatMap Piece.display := by
  induction pieces with
  | nil => rfl
  | cons piece pieces ih =>
    rw [List.flatMap_cons, ← ih]
    exact Piece.flatMap_display_glue _ _

theorem filterMap_column?_ofPieces (pieces : List Piece) :
    (ofPieces pieces).pieces.filterMap Piece.column? = pieces.filterMap Piece.column? := by
  induction pieces with
  | nil => rfl
  | cons piece pieces ih =>
    have hglue := Piece.filterMap_column?_glue piece (pieces.foldr Piece.glue [])
    rw [List.filterMap_cons] at hglue ⊢
    rw [← ih]
    exact hglue

/-! ## Words -/

/-- The words that stand for constants, in capitals. -/
def constantWords : List Text := ["TRUE", "FALSE", "NULL"].map Text.ofString

theorem wordConstant?_eq_none_iff {name : Text} :
    wordConstant? name = none ↔ Text.toUpper name ∉ constantWords := by
  simp only [constantWords, List.map_cons, List.map_nil, List.mem_cons, List.not_mem_nil, or_false,
    not_or]
  constructor
  · intro h
    refine ⟨?_, ?_, ?_⟩
    all_goals
      intro hword
      rw [wordConstant?, hword] at h
      cases h
  · rintro ⟨htrue, hfalse, hnull⟩
    rw [wordConstant?, if_neg htrue, if_neg hfalse, if_neg hnull]

/-- The words whose parenthesis opens a group of this kind, in capitals. -/
def GroupKind.words : GroupKind → List Text
  | plain => []
  | cast => ["CAST", "TRY_CAST"].map Text.ofString
  | extract => ["EXTRACT"].map Text.ofString

/-- The words of all groups with a meaning of their own. -/
def groupWords : List Text := GroupKind.cast.words ++ GroupKind.extract.words

theorem ofCall_eq_iff {name : Text} {kind : GroupKind} (h : kind ≠ .plain) :
    GroupKind.ofCall name = kind ↔ Text.toUpper name ∈ kind.words := by
  -- the words of the kinds are apart, so the order in which they are tried does not matter
  have hapart : Text.ofString "EXTRACT" ∉ GroupKind.cast.words := by decide
  have hcast : Text.toUpper name ∈ GroupKind.cast.words ↔
      Text.toUpper name = "CAST" ∨ Text.toUpper name = "TRY_CAST" := by simp [GroupKind.words]
  have hextract : Text.toUpper name ∈ GroupKind.extract.words ↔ Text.toUpper name = "EXTRACT" := by
    simp [GroupKind.words]
  cases kind with
  | plain => contradiction
  | cast =>
    rw [GroupKind.ofCall, hcast]
    split
    · rename_i hword
      exact ⟨fun _ => hword, fun _ => rfl⟩
    · rename_i hword
      refine ⟨fun hkind => ?_, fun hyes => absurd hyes hword⟩
      split at hkind <;> cases hkind
  | extract =>
    rw [GroupKind.ofCall, hextract]
    split
    · rename_i hword
      refine ⟨nofun, fun hname => ?_⟩
      rw [← hcast, hname] at hword
      exact absurd hword hapart
    · split
      · rename_i hname
        exact ⟨fun _ => hname, fun _ => rfl⟩
      · rename_i hname
        exact ⟨nofun, fun hyes => absurd hyes hname⟩

theorem ofCall_eq_plain {name : Text} (h : Text.toUpper name ∉ groupWords) :
    GroupKind.ofCall name = .plain := by
  have hall : ∀ kind : GroupKind, kind.words ⊆ groupWords := by
    intro kind
    cases kind with
    | plain => exact List.nil_subset _
    | cast => exact List.subset_append_left _ _
    | extract => exact List.subset_append_right _ _
  by_contra hkind
  exact h (hall _ ((ofCall_eq_iff hkind).mp rfl))

theorem constant_not_mem_words {name : Text} {value : Literal} (h : wordConstant? name = some value)
    (kind : GroupKind) : Text.toUpper name ∉ kind.words := by
  have hall : ∀ word ∈ constantWords, ∀ kind : GroupKind, word ∉ kind.words := by
    intro word hword kind
    revert word
    cases kind <;> decide
  refine hall _ ?_ kind
  by_contra hno
  rw [wordConstant?_eq_none_iff.mpr hno] at h
  cases h

theorem display_namePiece (name : Text) (beforeParen : Bool) :
    (namePiece name beforeParen).display = (wordConstant? name).elim name Literal.display := by
  unfold namePiece
  split
  · rename_i value hvalue
    rw [hvalue]
    rfl
  · rename_i hnone
    rw [hnone]
    split <;> rfl

theorem namePiece_eq_var_iff (name : Text) (beforeParen : Bool) :
    (∃ column, namePiece name beforeParen = .var column) ↔
      Text.toUpper name ∉ constantWords ∧ Text.toUpper name ∉ keywords ∧ beforeParen = false := by
  rw [← wordConstant?_eq_none_iff]
  cases hconstant : wordConstant? name with
  | some value => simp [namePiece, hconstant]
  | none =>
    by_cases hkeyword : Text.toUpper name ∈ keywords <;> cases beforeParen <;>
      simp [namePiece, hconstant, hkeyword]

end Expr

end SqlPipeline
