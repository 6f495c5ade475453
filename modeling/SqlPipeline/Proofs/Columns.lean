import Mathlib.Data.List.Nodup
import SqlPipeline.Tree.Narrow

/-!
# Lists of column names

What the operations on lists of column names do to membership and to repetition.
Almost every later argument looks at a list of columns through these two views
only: which names are in it, and that no name is in it twice. The order of columns
matters in few places, and there the lists are compared as they stand.

The last section inverts the two operations that give a column another name. A
joined column and a renamed column both have one origin only, because the names
that come out are not repeated.
-/

namespace SqlPipeline

/-- Names that can head the columns of a relation: none is empty and none is repeated. -/
structure Named (names : List Text) : Prop where
  nonempty : ∀ name ∈ names, name ≠ []
  nodup : names.Nodup

theorem Named.sublist {names part : List Text} (h : Named names) (hs : part.Sublist names) :
    Named part :=
  ⟨fun name hn => h.nonempty name (hs.subset hn), h.nodup.sublist hs⟩

/-- Distinct names out of a list of good names are good names. -/
theorem Named.of_subset {names part : List Text} (h : Named names) (hs : ∀ name ∈ part, name ∈ names)
    (hnd : part.Nodup) : Named part :=
  ⟨fun name hn => h.nonempty name (hs name hn), hnd⟩

/-! ## Repetition -/

theorem firstRepeatAfter_eq_none_iff {seen names : List Text} :
    Text.firstRepeatAfter seen names = none ↔ names.Nodup ∧ ∀ name ∈ names, name ∉ seen := by
  induction names generalizing seen with
  | nil => simp [Text.firstRepeatAfter]
  | cons name rest ih =>
    unfold Text.firstRepeatAfter
    -- names seen so far are those before the rest, and the head joins them
    by_cases h : name ∈ seen
    · simp [h]
    · rw [if_neg h, ih]
      simp only [List.nodup_cons, List.mem_cons, not_or, forall_eq_or_imp, h, not_false_eq_true,
        true_and]
      constructor
      · intro hm
        obtain ⟨hnd, hrest⟩ := hm
        exact ⟨⟨fun hm => (hrest name hm).1 rfl, hnd⟩, fun x hx => (hrest x hx).2⟩
      · intro hm
        obtain ⟨⟨hname, hnd⟩, hrest⟩ := hm
        exact ⟨hnd, fun x hx => ⟨fun he => hname (he ▸ hx), hrest x hx⟩⟩

theorem firstRepeat_eq_none_iff {names : List Text} :
    Text.firstRepeat names = none ↔ names.Nodup := by
  rw [Text.firstRepeat, firstRepeatAfter_eq_none_iff]
  simp

/-! ## Adding names that are not there yet -/

@[simp] theorem mem_appendNew {names rest : List Text} {name : Text} :
    name ∈ Text.appendNew names rest ↔ name ∈ names ∨ name ∈ rest := by
  induction rest generalizing names with
  | nil => simp [Text.appendNew]
  | cons first rest ih =>
    unfold Text.appendNew
    split
    · rename_i h
      rw [ih, List.mem_cons]
      constructor
      · intro hm
        rcases hm with hn | hr
        · exact Or.inl hn
        · exact Or.inr (Or.inr hr)
      · intro hm
        rcases hm with hn | rfl | hr
        · exact Or.inl hn
        · exact Or.inl h
        · exact Or.inr hr
    · rw [ih, List.mem_append, List.mem_singleton, List.mem_cons, or_assoc]

theorem nodup_appendNew {names : List Text} (rest : List Text) (h : names.Nodup) :
    (Text.appendNew names rest).Nodup := by
  induction rest generalizing names with
  | nil => exact h
  | cons first rest ih =>
    unfold Text.appendNew
    split
    · exact ih h
    · rename_i hf
      refine ih (List.nodup_append.mpr ⟨h, by simp, ?_⟩)
      intro a ha b hb
      rw [List.mem_singleton] at hb
      subst hb
      exact fun he => hf (he ▸ ha)

/-! ## Natural joins -/

@[simp] theorem mem_sharedColumns {left right : List Text} {name : Text} :
    name ∈ sharedColumns left right ↔ name ∈ left ∧ name ∈ right := by
  simp [sharedColumns]

@[simp] theorem mem_naturalColumns {left right : List Text} {name : Text} :
    name ∈ naturalColumns left right ↔ name ∈ left ∨ name ∈ right := by
  simp only [naturalColumns, List.mem_append, List.mem_filter, List.contains_eq_mem,
    mem_sharedColumns, Bool.not_eq_eq_eq_not, Bool.not_true, decide_eq_false_iff_not]
  constructor
  · intro hm
    rcases hm with h | ⟨h, -⟩
    · exact Or.inl h
    · exact Or.inr h
  · intro h
    by_cases hl : name ∈ left
    · exact Or.inl hl
    · exact Or.inr ⟨h.resolve_left hl, fun hs => hl hs.1⟩

theorem nodup_naturalColumns {left right : List Text} (hl : left.Nodup) (hr : right.Nodup) :
    (naturalColumns left right).Nodup := by
  refine List.nodup_append.mpr ⟨hl, hr.filter _, ?_⟩
  intro a ha b hb he
  subst he
  simp only [List.mem_filter, List.contains_eq_mem, mem_sharedColumns, Bool.not_eq_eq_eq_not,
    Bool.not_true, decide_eq_false_iff_not] at hb
  exact hb.2 ⟨ha, hb.1⟩

/-! ## Keeping what is needed -/

theorem keepOne_sublist (columns needed : List Text) :
    (keepOne columns needed).Sublist columns := by
  unfold keepOne
  split
  · exact List.take_sublist 1 columns
  · exact List.filter_sublist

theorem keepOne_ne_nil {columns : List Text} (h : columns ≠ []) (needed : List Text) :
    keepOne columns needed ≠ [] := by
  unfold keepOne
  split
  · cases columns with
    | nil => exact absurd rfl h
    | cons first rest => simp
  · assumption

theorem mem_keepOne {columns needed : List Text} {name : Text} (hc : name ∈ columns)
    (hn : name ∈ needed) : name ∈ keepOne columns needed := by
  have hmem : name ∈ columns.filter needed.contains := by
    rw [List.mem_filter, List.contains_eq_mem, decide_eq_true_eq]
    exact ⟨hc, hn⟩
  unfold keepOne
  split
  · rename_i he
    rw [he] at hmem
    exact absurd hmem (by simp)
  · exact hmem

theorem keepAggregates_sublist (groupBy needed : List Text) (aggregates : List Assignment) :
    (keepAggregates groupBy needed aggregates).Sublist aggregates := by
  unfold keepAggregates
  split
  · split
    · exact List.take_sublist 1 aggregates
    · exact List.nil_sublist aggregates
  · exact List.filter_sublist

/-- A result with no group column keeps an aggregate. -/
theorem keepAggregates_ne_nil {aggregates : List Assignment} (h : aggregates ≠ [])
    (needed : List Text) : keepAggregates [] needed aggregates ≠ [] := by
  unfold keepAggregates
  split
  · rw [if_pos List.isEmpty_nil]
    cases aggregates with
    | nil => exact absurd rfl h
    | cons first rest => simp
  · assumption

theorem mem_keepAggregates {groupBy needed : List Text} {aggregates : List Assignment}
    {a : Assignment} (ha : a ∈ aggregates) (hn : a.target ∈ needed) :
    a ∈ keepAggregates groupBy needed aggregates := by
  have hmem : a ∈ aggregates.filter fun a => needed.contains a.target := by
    rw [List.mem_filter, List.contains_eq_mem, decide_eq_true_eq]
    exact ⟨ha, hn⟩
  unfold keepAggregates
  split
  · rename_i he
    rw [he] at hmem
    exact absurd hmem (by simp)
  · exact hmem

/-! ## Where a column comes from -/

section Find

variable {α : Type} {items : List α} {key : α → Text}

/-- With distinct keys, an item is found under its own. -/
theorem find?_key_eq_some (h : (items.map key).Nodup) {a : α} (ha : a ∈ items) :
    items.find? (fun b => key b == key a) = some a := by
  cases hf : items.find? (fun b => key b == key a) with
  | none => exact absurd (beq_self_eq_true (key a)) (List.find?_eq_none.mp hf a ha)
  | some b =>
    have hk := List.find?_some hf
    rw [beq_iff_eq] at hk
    rw [List.inj_on_of_nodup_map h (List.mem_of_find?_eq_some hf) ha hk]

theorem find?_key_eq_none {name : Text} (h : name ∉ items.map key) :
    items.find? (fun a => key a == name) = none := by
  rw [List.find?_eq_none]
  intro a ha hp
  exact h (List.mem_map.mpr ⟨a, ha, beq_iff_eq.mp hp⟩)

end Find

/-- The name that a column of one side has after a join on a predicate. -/
def joinedName (collisions : List Text) (suffixes : Suffixes) (fromLeft : Bool) (name : Text) : Text :=
  if collisions.contains name then name ++ (if fromLeft then suffixes.left else suffixes.right)
  else name

theorem mem_joinColumns {left right collisions : List Text} {suffixes : Suffixes} {c : JoinColumn} :
    c ∈ joinColumns left right collisions suffixes ↔
      c.input ∈ (if c.fromLeft then left else right) ∧
        c.output = joinedName collisions suffixes c.fromLeft c.input := by
  obtain ⟨fromLeft, input, output⟩ := c
  simp only [joinColumns, joinedName, List.mem_append, List.mem_map, JoinColumn.mk.injEq]
  -- a column of one side is not among those made for the other one
  cases fromLeft with
  | true =>
    constructor
    · intro hm
      rcases hm with ⟨name, hn, -, rfl, rfl⟩ | ⟨name, -, hf, -⟩
      · exact ⟨hn, rfl⟩
      · exact absurd hf (by simp)
    · intro hm
      obtain ⟨hn, ho⟩ := hm
      exact Or.inl ⟨input, hn, rfl, rfl, ho.symm⟩
  | false =>
    constructor
    · intro hm
      rcases hm with ⟨name, -, hf, -⟩ | ⟨name, hn, -, rfl, rfl⟩
      · exact absurd hf (by simp)
      · exact ⟨hn, rfl⟩
    · intro hm
      obtain ⟨hn, ho⟩ := hm
      exact Or.inr ⟨input, hn, rfl, rfl, ho.symm⟩

theorem joinColumns_mono {left right left' right' collisions : List Text} {suffixes : Suffixes}
    (hl : ∀ name ∈ left', name ∈ left) (hr : ∀ name ∈ right', name ∈ right) {c : JoinColumn}
    (hc : c ∈ joinColumns left' right' collisions suffixes) :
    c ∈ joinColumns left right collisions suffixes := by
  rw [mem_joinColumns] at hc ⊢
  refine ⟨?_, hc.2⟩
  have hin := hc.1
  split at hin
  · rename_i hf
    rw [if_pos hf]
    exact hl _ hin
  · rename_i hf
    rw [if_neg hf]
    exact hr _ hin

theorem nodup_joinColumns {left right : List Text} (hl : left.Nodup) (hr : right.Nodup)
    (collisions : List Text) (suffixes : Suffixes) :
    (joinColumns left right collisions suffixes).Nodup := by
  refine List.nodup_append.mpr ⟨hl.map ?_, hr.map ?_, ?_⟩
  · exact fun a b h => (JoinColumn.mk.inj h).2.1
  · exact fun a b h => (JoinColumn.mk.inj h).2.1
  · intro a ha b hb he
    obtain ⟨name, -, rfl⟩ := List.mem_map.mp ha
    obtain ⟨other, -, rfl⟩ := List.mem_map.mp hb
    exact absurd (JoinColumn.mk.inj he).1 (by simp)

/-- Fewer columns on either side still give distinct names. -/
theorem nodup_join_outputs {left right left' right' collisions : List Text} {suffixes : Suffixes}
    (h : ((joinColumns left right collisions suffixes).map JoinColumn.output).Nodup)
    (hl : ∀ name ∈ left', name ∈ left) (hr : ∀ name ∈ right', name ∈ right)
    (hl' : left'.Nodup) (hr' : right'.Nodup) :
    ((joinColumns left' right' collisions suffixes).map JoinColumn.output).Nodup := by
  refine List.Nodup.map_on ?_ (nodup_joinColumns hl' hr' collisions suffixes)
  intro a ha b hb he
  exact List.inj_on_of_nodup_map h (joinColumns_mono hl hr ha) (joinColumns_mono hl hr hb) he

theorem renamed_of_mem {mapping : List Rename} {r : Rename} (h : (mapping.map Rename.old).Nodup)
    (hr : r ∈ mapping) : renamed mapping r.old = r.new := by
  rw [renamed, find?_key_eq_some h hr]

theorem renamed_of_not_mem {mapping : List Rename} {name : Text}
    (h : name ∉ mapping.map Rename.old) : renamed mapping name = name := by
  rw [renamed, find?_key_eq_none h]

/-- A renaming may lose the entries of columns that are not there. -/
theorem renamed_filter {mapping : List Rename} {columns : List Text} {name : Text}
    (h : name ∈ columns) :
    renamed (mapping.filter fun r => columns.contains r.old) name = renamed mapping name := by
  have hf : (mapping.filter fun r => columns.contains r.old).find? (fun r => r.old == name) =
      mapping.find? (fun r => r.old == name) := by
    rw [List.find?_filter]
    refine congrArg (mapping.find? ·) (funext fun r => ?_)
    by_cases hr : r.old = name
    · simp [hr, h]
    · simp [hr]
  rw [renamed, renamed, hf]

/-- The old name of a renamed column is the name it had. -/
theorem oldName_renamed {mapping : List Rename} {columns : List Text} {name : Text}
    (hold : ∀ old ∈ mapping.map Rename.old, old ∈ columns) (holds : (mapping.map Rename.old).Nodup)
    (hnews : (mapping.map Rename.new).Nodup) (hnd : (columns.map (renamed mapping)).Nodup)
    (hn : name ∈ columns) : oldName mapping (renamed mapping name) = name := by
  by_cases hm : name ∈ mapping.map Rename.old
  · obtain ⟨r, hr, rfl⟩ := List.mem_map.mp hm
    rw [renamed_of_mem holds hr, oldName, find?_key_eq_some hnews hr]
  · have hnew : name ∉ mapping.map Rename.new := by
      intro hnew
      obtain ⟨r, hr, hrn⟩ := List.mem_map.mp hnew
      -- an entry that ends in `name` would make two columns of that name
      have hin : r.old ∈ columns := hold _ (List.mem_map.mpr ⟨r, hr, rfl⟩)
      have he : renamed mapping r.old = renamed mapping name := by
        rw [renamed_of_mem holds hr, renamed_of_not_mem hm, hrn]
      have hold : r.old = name := List.inj_on_of_nodup_map hnd hin hn he
      exact hm (hold ▸ List.mem_map.mpr ⟨r, hr, rfl⟩)
    rw [renamed_of_not_mem hm, oldName, find?_key_eq_none hnew]

end SqlPipeline
