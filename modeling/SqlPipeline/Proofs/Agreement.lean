import Mathlib.Data.List.Forall2
import SqlPipeline.Proofs.Meaning
import SqlPipeline.Proofs.Narrowing

/-!
# Rows that agree on some columns

Two lists of rows *agree* on some columns when they have the same rows as far as
these columns go. What looks only at such columns does the same to both lists: it
keeps the same rows, sorts them in the same way, pairs and groups them alike. One
lemma for each operation on rows says so, and says on which columns the results
agree.

The operation need not even be the same on both sides. Narrowing leaves out columns
of an input, aggregates and assignments, and the lemmas allow for it.
-/

namespace SqlPipeline

universe u

variable {V : Type u}

/-! ## Agreement -/

/-- The rows have the same values in the given columns. -/
def SameOn (columns : List Text) (r r' : Row V) : Prop := ∀ name ∈ columns, r name = r' name

/-- The lists have the same rows as far as the given columns go. -/
def Agree (columns : List Text) (rows rows' : List (Row V)) : Prop :=
  List.Forall₂ (SameOn columns) rows rows'

section Agree

variable {columns out : List Text} {r r' : Row V} {rows rows' : List (Row V)}

theorem SameOn.mono (h : SameOn columns r r') (hs : ∀ name ∈ out, name ∈ columns) : SameOn out r r' :=
  fun name hn => h name (hs name hn)

theorem Engine.restrict_eq_iff (E : Engine V) :
    E.restrict columns r = E.restrict columns r' ↔ SameOn columns r r' := by
  constructor
  · intro h name hn
    have happ := congrFun h name
    rwa [E.restrict_of_mem hn, E.restrict_of_mem hn] at happ
  · intro h
    funext name
    by_cases hn : name ∈ columns
    · rw [E.restrict_of_mem hn, E.restrict_of_mem hn, h name hn]
    · rw [E.restrict_of_not_mem hn, E.restrict_of_not_mem hn]

/-- Lists agree exactly if their rows, cut to the columns, are the same. -/
theorem agree_iff_map (E : Engine V) :
    Agree columns rows rows' ↔ rows.map (E.restrict columns) = rows'.map (E.restrict columns) := by
  rw [← List.forall₂_eq_eq_eq, List.forall₂_map_left_iff, List.forall₂_map_right_iff, Agree]
  simp only [E.restrict_eq_iff]

theorem agree_refl (columns : List Text) (rows : List (Row V)) : Agree columns rows rows :=
  List.forall₂_same.mpr fun _ _ _ _ => rfl

theorem Agree.mono (h : Agree columns rows rows') (hs : ∀ name ∈ out, name ∈ columns) :
    Agree out rows rows' :=
  List.Forall₂.imp (fun _ _ hr => hr.mono hs) h

theorem Agree.map {f f' : Row V → Row V} (h : Agree columns rows rows')
    (hf : ∀ r r', SameOn columns r r' → SameOn out (f r) (f' r')) :
    Agree out (rows.map f) (rows'.map f') := by
  rw [Agree, List.forall₂_map_left_iff, List.forall₂_map_right_iff]
  exact h.imp hf

/-- Columns that neither list has do not matter. -/
theorem Agree.of_fits {E : Engine V} {schema wanted : List Text}
    (h : Agree (wanted.filter schema.contains) rows rows') (hr : ∀ r ∈ rows, E.Fits schema r)
    (hr' : ∀ r ∈ rows', E.Fits schema r) : Agree wanted rows rows' := by
  -- outside of its schema a row is blank, so there both restrictions give null
  have hcut : ∀ r, E.Fits schema r →
      E.restrict wanted r = E.restrict (wanted.filter schema.contains) r := by
    intro r hfit
    funext name
    by_cases hw : name ∈ wanted
    · by_cases hs : name ∈ schema
      · rw [E.restrict_of_mem hw, E.restrict_of_mem (Tree.mem_needed.mpr ⟨hw, hs⟩)]
      · rw [E.restrict_of_mem hw, hfit name hs,
          E.restrict_of_not_mem fun hn => hs (Tree.mem_needed.mp hn).2]
    · rw [E.restrict_of_not_mem hw,
        E.restrict_of_not_mem fun hn => hw (Tree.mem_needed.mp hn).1]
  rw [agree_iff_map E] at h ⊢
  rw [List.map_congr_left fun r hm => hcut r (hr r hm), h,
    List.map_congr_left fun r hm => hcut r (hr' r hm)]

/-! ## Sorting and cutting -/

theorem Engine.rowPrecedes_congr (E : Engine V) {terms : List OrderTerm} {a a' b b' : Row V}
    (ha : SameOn (terms.map OrderTerm.column) a a') (hb : SameOn (terms.map OrderTerm.column) b b') :
    E.rowPrecedes terms a b = E.rowPrecedes terms a' b' := by
  induction terms with
  | nil => rfl
  | cons t rest ih =>
    have ht : t.column ∈ (t :: rest).map OrderTerm.column := List.mem_cons_self
    rw [rowPrecedes, rowPrecedes, ha _ ht, hb _ ht,
      ih (ha.mono fun _ hn => List.mem_cons_of_mem _ hn)
        (hb.mono fun _ hn => List.mem_cons_of_mem _ hn)]

theorem Agree.mergeSort (E : Engine V) {terms : List OrderTerm} (h : Agree columns rows rows')
    (hs : ∀ name ∈ terms.map OrderTerm.column, name ∈ columns) :
    Agree columns (rows.mergeSort (E.rowPrecedes terms)) (rows'.mergeSort (E.rowPrecedes terms)) := by
  have hcomm : ∀ l : List (Row V), (l.mergeSort (E.rowPrecedes terms)).map (E.restrict columns) =
      (l.map (E.restrict columns)).mergeSort (E.rowPrecedes terms) := by
    intro l
    refine List.map_mergeSort fun a _ b _ => E.rowPrecedes_congr ?_ ?_
    · exact fun name hn => (E.restrict_of_mem (hs name hn) a).symm
    · exact fun name hn => (E.restrict_of_mem (hs name hn) b).symm
  rw [agree_iff_map E] at h ⊢
  rw [hcomm, hcomm, h]

theorem Agree.firstRows (limit : Option Nat) (h : Agree columns rows rows') :
    Agree columns (firstRows limit rows) (firstRows limit rows') := by
  cases limit with
  | none => exact h
  | some n => exact List.forall₂_take n h

/-! ## Predicates and assignments -/

theorem Meaning.passes_congr (M : Meaning V) {predicate : Expr}
    (h : SameOn predicate.columns r r') : M.passes predicate r = M.passes predicate r' := by
  rw [passes, passes, M.restrict_eq_iff.mpr h]

theorem Agree.filter (M : Meaning V) {predicate : Expr} (h : Agree columns rows rows')
    (hs : ∀ name ∈ predicate.columns, name ∈ columns) :
    Agree columns (rows.filter (M.passes predicate)) (rows'.filter (M.passes predicate)) := by
  refine List.rel_filter ?_ h
  intro r r' hr
  simp only [M.passes_congr (hr.mono hs)]

theorem Meaning.valueAt_congr (M : Meaning V) {partitionBy : List Text} {order : List OrderTerm}
    {e : Expr} (h : Agree (e.columns ++ windowColumns partitionBy order) rows rows') (i : Nat) :
    M.valueAt partitionBy order e rows i = M.valueAt partitionBy order e rows' i := by
  unfold valueAt
  split
  · -- beyond the last row both lists give the blank row
    have hget : ∀ l : List (Row V), M.restrict e.columns (l.getD i M.blank) =
        (l.map (M.restrict e.columns)).getD i M.blank := by
      intro l
      have hmap := List.getD_map l M.blank (n := i) (M.restrict e.columns)
      rw [M.restrict_blank] at hmap
      exact hmap.symm
    have hreads : Agree e.columns rows rows' := h.mono fun _ hn => List.mem_append_left _ hn
    rw [hget, hget, (agree_iff_map M.toEngine).mp hreads]
  · rw [(agree_iff_map M.toEngine).mp h]

theorem Agree.mapIdx {f f' : Nat → Row V → Row V} (h : Agree columns rows rows')
    (hf : ∀ i r r', SameOn columns r r' → SameOn out (f i r) (f' i r')) :
    Agree out (rows.mapIdx f) (rows'.mapIdx f') := by
  induction h generalizing f f' with
  | nil => exact List.Forall₂.nil
  | cons hr _ ih =>
    rw [List.mapIdx_cons, List.mapIdx_cons]
    exact List.Forall₂.cons (hf 0 _ _ hr) (ih fun i => hf (i + 1))

/-- An assignment whose reads agree makes its target agree. -/
theorem Agree.assign (M : Meaning V) {partitionBy : List Text} {order : List OrderTerm} {a : Assignment}
    (h : Agree columns rows rows') (hreads : ∀ name ∈ a.reads, name ∈ columns)
    (hwindow : ∀ name ∈ windowColumns partitionBy order, name ∈ columns)
    (hout : ∀ name ∈ out, name = a.target ∨ name ∈ columns) :
    Agree out (M.assign partitionBy order rows a) (M.assign partitionBy order rows' a) := by
  have hvalue : Agree (a.expr.columns ++ windowColumns partitionBy order) rows rows' :=
    h.mono fun name hn => (List.mem_append.mp hn).elim (hreads name) (hwindow name)
  refine h.mapIdx fun i r r' hr name hn => ?_
  rw [M.valueAt_congr hvalue i]
  by_cases he : name = a.target
  · rw [he, Function.update_self, Function.update_self]
  · rw [Function.update_of_ne he, Function.update_of_ne he]
    exact hr name ((hout name hn).resolve_left he)

/-- Writing another column changes nothing. -/
theorem Agree.write_left {x : Text} (v : Nat → V) (h : Agree columns rows rows') (hx : x ∉ columns) :
    Agree columns (rows.mapIdx fun i r => Function.update r x (v i)) rows' := by
  rw [← List.map_id rows', ← mapIdx_eq_map]
  refine h.mapIdx fun i r r' hr name hn => ?_
  have hne : name ≠ x := fun he => hx (he ▸ hn)
  rw [Function.update_of_ne hne]
  exact hr name hn

/-- Assignments to other columns change nothing. -/
theorem Agree.foldl_assign_left (M : Meaning V) {partitionBy : List Text} {order : List OrderTerm}
    {as : List Assignment} (h : Agree columns rows rows')
    (ht : ∀ name ∈ as.map Assignment.target, name ∉ columns) :
    Agree columns (as.foldl (M.assign partitionBy order) rows) rows' := by
  induction as generalizing rows with
  | nil => exact h
  | cons a rest ih =>
    refine ih (h.write_left _ (ht a.target List.mem_cons_self)) ?_
    exact fun name hn => ht name (List.mem_cons_of_mem _ hn)

/-- The assignments that still matter compute the needed columns from the live ones. -/
theorem Agree.liveAssignments (M : Meaning V) {partitionBy : List Text} {order : List OrderTerm}
    {as : List Assignment} {needed : List Text}
    (hfree : ∀ name ∈ windowColumns partitionBy order, name ∉ as.map Assignment.target)
    (h : Agree ((liveAssignments needed as).2 ++ windowColumns partitionBy order) rows rows') :
    Agree needed (as.foldl (M.assign partitionBy order) rows)
      ((liveAssignments needed as).1.foldl (M.assign partitionBy order) rows') := by
  induction as generalizing rows rows' with
  | nil => exact h.mono fun _ hn => List.mem_append_left _ hn
  | cons a rest ih =>
    have hrest : ∀ name ∈ windowColumns partitionBy order, name ∉ rest.map Assignment.target :=
      fun name hn hm => hfree name hn (List.mem_cons_of_mem _ hm)
    rw [liveAssignments_cons] at h ⊢
    split at h
    · rename_i hlive
      rw [if_pos hlive]
      -- both lists run the assignment; all that it reads is live before it
      refine ih hrest (h.assign M ?_ ?_ ?_)
      · exact fun name hn => List.mem_append_left _ (List.mem_append_right _ hn)
      · exact fun name hn => List.mem_append_right _ hn
      · intro name hn
        by_cases he : name = a.target
        · exact Or.inl he
        · rcases List.mem_append.mp hn with hl | hw
          · exact Or.inr (List.mem_append_left _ (List.mem_append_left _ (by simp [hl, he])))
          · exact Or.inr (List.mem_append_right _ hw)
    · rename_i hdead
      rw [if_neg hdead]
      -- the target is not read again, so only the tree itself runs the assignment
      refine ih hrest (h.write_left _ ?_)
      intro hm
      rcases List.mem_append.mp hm with hl | hw
      · exact hdead hl
      · exact hfree a.target hw List.mem_cons_self

/-! ## Groups -/

theorem Agree.groups [DecidableEq V] {groupBy : List Text} (h : Agree columns rows rows')
    (hs : ∀ name ∈ groupBy, name ∈ columns) :
    List.Forall₂ (Agree columns) (groups groupBy rows) (groups groupBy rows') := by
  have hkey : ∀ r r' : Row V, SameOn columns r r' → groupBy.map r = groupBy.map r' :=
    fun r r' hr => List.map_congr_left fun name hn => hr name (hs name hn)
  -- the same groups in the same order, as the keys come from the rows in order
  have hkeys : (rows.map fun r => groupBy.map r) = rows'.map fun r => groupBy.map r := by
    rw [← List.forall₂_eq_eq_eq, List.forall₂_map_left_iff, List.forall₂_map_right_iff]
    exact h.imp hkey
  unfold SqlPipeline.groups
  split
  · exact List.Forall₂.cons h List.Forall₂.nil
  · rw [hkeys, List.forall₂_map_left_iff, List.forall₂_map_right_iff, List.forall₂_same]
    intro key _
    refine List.rel_filter ?_ h
    intro r r' hr
    simp only [hkey r r' hr]

theorem Agree.head? (E : Engine V) (h : Agree columns rows rows') {name : Text}
    (hn : name ∈ columns) : rows.head?.getD E.blank name = rows'.head?.getD E.blank name := by
  cases h with
  | nil => rfl
  | cons hr _ => exact hr name hn

/-- The row of a group does not depend on the aggregates that nobody needs. -/
theorem Agree.groupRow (M : Meaning V) {groupBy needed : List Text} {aggregates : List Assignment}
    (hnd : (aggregates.map Assignment.target).Nodup)
    (h : Agree (groupBy ++ (keepAggregates groupBy needed aggregates).flatMap Assignment.reads)
      rows rows') :
    SameOn needed (M.groupRow groupBy aggregates rows)
      (M.groupRow groupBy (keepAggregates groupBy needed aggregates) rows') := by
  have hsub := keepAggregates_sublist groupBy needed aggregates
  intro name hn
  unfold Meaning.groupRow
  by_cases hg : name ∈ groupBy
  · rw [if_pos hg, if_pos hg]
    exact h.head? M.toEngine (List.mem_append_left _ hg)
  · rw [if_neg hg, if_neg hg]
    by_cases ht : name ∈ aggregates.map Assignment.target
    · obtain ⟨a, ha, rfl⟩ := List.mem_map.mp ht
      -- a needed aggregate is kept, and what it reads is asked of the input
      have hkept : a ∈ keepAggregates groupBy needed aggregates := mem_keepAggregates ha hn
      rw [find?_key_eq_some hnd ha,
        find?_key_eq_some (hnd.sublist (hsub.map Assignment.target)) hkept]
      have hreads : Agree a.reads rows rows' := h.mono fun name hr =>
        List.mem_append_right _ (List.mem_flatMap.mpr ⟨a, hkept, hr⟩)
      simp only [(agree_iff_map M.toEngine).mp hreads]
    · rw [find?_key_eq_none ht,
        find?_key_eq_none fun hk => ht ((hsub.map Assignment.target).subset hk)]

/-! ## Joins -/

section Pairs

variable {α β : Type u} {S : α → α → Prop} {T : β → β → Prop} {on on' : α → β → Bool}
  {left left' : List α} {right right' : List β}

theorem any_eq_of_forall₂ (hl : List.Forall₂ S left left')
    (hon : ∀ l l' r r', S l l' → T r r' → on l r = on' l' r') {r r' : β} (hr : T r r') :
    (left.any fun l => on l r) = left'.any fun l => on' l r' := by
  induction hl with
  | nil => rfl
  | cons h _ ih => rw [List.any_cons, List.any_cons, ih, hon _ _ _ _ h hr]

/-- A join pairs alike what the sides cannot tell apart. -/
theorem joinPairs_rel (type : JoinType) (hl : List.Forall₂ S left left')
    (hr : List.Forall₂ T right right')
    (hon : ∀ l l' r r', S l l' → T r r' → on l r = on' l' r') :
    List.Forall₂ (fun p p' => Option.Rel S p.1 p'.1 ∧ Option.Rel T p.2 p'.2)
      (joinPairs type on left right) (joinPairs type on' left' right') := by
  refine List.rel_append (List.rel_flatMap hl ?_) ?_
  · intro l l' hll
    have hpartners : List.Forall₂ T (right.filter (on l)) (right'.filter (on' l')) := by
      refine List.rel_filter ?_ hr
      intro r r' hrr
      simp only [hon l l' r r' hll hrr]
    -- a row without partners is treated on its own, so look at the partners and not at the filter
    dsimp only
    generalize right.filter (on l) = partners at hpartners
    generalize right'.filter (on' l') = partners' at hpartners
    cases hpartners with
    | nil =>
      dsimp only
      split
      · exact List.Forall₂.cons ⟨Option.Rel.some hll, Option.Rel.none⟩ List.Forall₂.nil
      · exact List.Forall₂.nil
    | cons hrr hrest =>
      refine List.Forall₂.cons ⟨Option.Rel.some hll, Option.Rel.some hrr⟩ ?_
      refine List.rel_map ?_ hrest
      exact fun r r' h => ⟨Option.Rel.some hll, Option.Rel.some h⟩
  · split
    · refine List.rel_map (fun r r' h => ⟨Option.Rel.none, Option.Rel.some h⟩) ?_
      refine List.rel_filter ?_ hr
      intro r r' hrr
      simp only [any_eq_of_forall₂ hl hon hrr]
    · exact List.Forall₂.nil

end Pairs

variable {left right left' right' : List Text}

theorem sameOn_getD {E : Engine V} {o o' : Option (Row V)} (h : Option.Rel (SameOn columns) o o') :
    SameOn columns (o.getD E.blank) (o'.getD E.blank) := by
  cases h with
  | some hr => exact hr
  | none => exact fun _ _ => rfl

/-- Fewer columns on either side give the same joined row, as far as needed columns go. -/
theorem sameOn_naturalRow {E : Engine V} {needed : List Text}
    (hin : ∀ name ∈ needed, name ∈ columns)
    (hleft : ∀ name ∈ needed, (name ∈ left' ↔ name ∈ left))
    (hright : ∀ name ∈ needed, (name ∈ right' ↔ name ∈ right))
    {p p' : Option (Row V) × Option (Row V)} (hl : Option.Rel (SameOn columns) p.1 p'.1)
    (hr : Option.Rel (SameOn columns) p.2 p'.2) :
    SameOn needed (E.naturalRow left right p) (E.naturalRow left' right' p') := by
  -- whether a side is there decides where a shared column comes from
  have hsome : ∀ {o o' : Option (Row V)}, Option.Rel (SameOn columns) o o' →
      o.isSome = o'.isSome := by
    intro o o' h
    cases h with
    | some _ => rfl
    | none => rfl
  intro name hn
  unfold Engine.naturalRow
  rw [sameOn_getD hl name (hin name hn), sameOn_getD hr name (hin name hn), hsome hl]
  simp only [hleft name hn, hright name hn]

/-- Whether rows agree on keys does not depend on the order of the keys. -/
theorem Engine.keysAgree_congr (E : Engine V) {keys keys' : List Text} {l l' r r' : Row V}
    (hkeys : ∀ name, name ∈ keys' ↔ name ∈ keys) (hl : SameOn keys l l') (hr : SameOn keys r r') :
    E.keysAgree keys l r = E.keysAgree keys' l' r' := by
  unfold keysAgree
  rw [Bool.eq_iff_iff, List.all_eq_true, List.all_eq_true]
  constructor
  · intro h name hn
    have hk := (hkeys name).mp hn
    rw [← hl name hk, ← hr name hk]
    exact h name hk
  · intro h name hn
    rw [hl name hn, hr name hn]
    exact h name ((hkeys name).mpr hn)

theorem sameOn_thetaRow {E : Engine V} {collisions outputs : List Text} {suffixes : Suffixes}
    {used : List JoinColumn} (hused : used = usedColumns left right collisions suffixes outputs)
    (hnd : ((joinColumns left right collisions suffixes).map JoinColumn.output).Nodup)
    (hnd' : ((joinColumns left' right' collisions suffixes).map JoinColumn.output).Nodup)
    (hwithin : ∀ c ∈ joinColumns left' right' collisions suffixes,
      c ∈ joinColumns left right collisions suffixes)
    (hstays : ∀ c ∈ joinColumns left right collisions suffixes, c.output ∈ outputs →
      c ∈ joinColumns left' right' collisions suffixes)
    {p p' : Option (Row V) × Option (Row V)} (hl : Option.Rel (SameOn (sideInputs true used)) p.1 p'.1)
    (hr : Option.Rel (SameOn (sideInputs false used)) p.2 p'.2) :
    SameOn outputs (E.thetaRow (joinColumns left right collisions suffixes) p)
      (E.thetaRow (joinColumns left' right' collisions suffixes) p') := by
  subst hused
  intro name hn
  unfold Engine.thetaRow
  -- a name that no column of the join puts out is null in both rows
  by_cases hout : name ∈ (joinColumns left right collisions suffixes).map JoinColumn.output
  · obtain ⟨c, hc, rfl⟩ := List.mem_map.mp hout
    have hmem : c ∈ usedColumns left right collisions suffixes outputs :=
      List.mem_filter.mpr ⟨hc, by simpa using hn⟩
    rw [find?_key_eq_some hnd hc, find?_key_eq_some hnd' (hstays c hc hn)]
    dsimp only
    have hside := input_mem_sideInputs hmem
    cases hf : c.fromLeft with
    | true => exact sameOn_getD hl _ (hf ▸ hside)
    | false => exact sameOn_getD hr _ (hf ▸ hside)
  · have hout' : name ∉ (joinColumns left' right' collisions suffixes).map JoinColumn.output := by
      intro hm
      obtain ⟨c, hc, rfl⟩ := List.mem_map.mp hm
      exact hout (List.mem_map.mpr ⟨c, hwithin c hc, rfl⟩)
    rw [find?_key_eq_none hout, find?_key_eq_none hout']

/-! ## Renamings -/

/-- A renamed column has the value it had. -/
theorem Engine.renamedRow_renamed (E : Engine V) {mapping : List Rename} {old : Text}
    (hnd : (columns.map (renamed mapping)).Nodup) (ho : old ∈ columns) (r : Row V) :
    E.renamedRow columns mapping r (renamed mapping old) = r old := by
  rw [renamedRow, find?_key_eq_some hnd ho]

end Agree

end SqlPipeline
