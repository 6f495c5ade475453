import Mathlib.Data.List.Forall2
import SqlPipeline.Proofs.Validity

/-!
# Narrowing never fails on a valid tree

Narrowing rebuilds every node through the builders, whose checks can fail. On a
valid tree they cannot: `Tree.narrowed` builds the same nodes without any check, and
`Tree.narrowTo_eq` says that the two agree. So everything else about narrowing is
said of `Tree.narrowed`.

The invariant speaks of columns only. Whatever columns are wanted of a node, the
rebuilt node has each of them that the node has, and no column that the node does
not have. The first half lets a parent find what it reads; the second keeps the
checks about repeated names and shared columns alive, because fewer columns cannot
clash where all of them did not.
-/

namespace SqlPipeline

/-! ## Assignments that still matter -/

theorem liveAssignments_cons (live : List Text) (a : Assignment) (rest : List Assignment) :
    liveAssignments live (a :: rest) =
      if a.target ∈ (liveAssignments live rest).2 then
        (a :: (liveAssignments live rest).1,
          (liveAssignments live rest).2.filter (fun name => name != a.target) ++ a.reads)
      else liveAssignments live rest := by
  rw [liveAssignments]
  simp only [List.contains_eq_mem, decide_eq_true_eq]

theorem liveAssignments_sublist (live : List Text) (as : List Assignment) :
    (liveAssignments live as).1.Sublist as := by
  induction as with
  | nil => exact List.Sublist.refl _
  | cons a rest ih =>
    rw [liveAssignments_cons]
    split
    · exact ih.cons_cons a
    · exact ih.cons a

/-- What is needed after a batch is needed before it, or the batch computes it. -/
theorem mem_live_or_kept {needed : List Text} {name : Text} (hn : name ∈ needed)
    (as : List Assignment) :
    name ∈ (liveAssignments needed as).2 ∨
      name ∈ (liveAssignments needed as).1.map Assignment.target := by
  induction as with
  | nil => exact Or.inl hn
  | cons a rest ih =>
    rw [liveAssignments_cons]
    split
    · by_cases he : name = a.target
      · exact Or.inr (by simp [he])
      · rcases ih with h | h
        · exact Or.inl (List.mem_append_left _ (by simp [h, he]))
        · exact Or.inr (List.mem_cons_of_mem _ h)
    · exact ih

/-- A needed column that the batch writes is written by an assignment that stays. -/
theorem mem_kept_of_mem_targets {needed : List Text} {as : List Assignment} {name : Text}
    (hn : name ∈ needed) (ht : name ∈ as.map Assignment.target) :
    name ∈ (liveAssignments needed as).1.map Assignment.target := by
  induction as with
  | nil => exact absurd ht (by simp)
  | cons a rest ih =>
    rw [liveAssignments_cons]
    by_cases hr : name ∈ rest.map Assignment.target
    · split
      · exact List.mem_cons_of_mem _ (ih hr)
      · exact ih hr
    · -- the last write of `name` is `a`, so `name` is still live when `a` is reached
      have he : name = a.target := by
        rcases List.mem_cons.mp ht with he | hr'
        · exact he
        · exact absurd hr' hr
      have hlive : a.target ∈ (liveAssignments needed rest).2 := by
        rcases mem_live_or_kept hn rest with h | h
        · exact he ▸ h
        · obtain ⟨b, hb, hbt⟩ := List.mem_map.mp h
          exact absurd (List.mem_map.mpr ⟨b, (liveAssignments_sublist needed rest).subset hb, hbt⟩) hr
      rw [if_pos hlive, he]
      exact List.mem_cons_self

/-- A batch of which nothing stays needs what is needed after it. -/
theorem live_eq_of_kept_nil {needed : List Text} {as : List Assignment}
    (h : (liveAssignments needed as).1 = []) : (liveAssignments needed as).2 = needed := by
  induction as with
  | nil => rfl
  | cons a rest ih =>
    rw [liveAssignments_cons] at h ⊢
    split at h
    · exact absurd h (by simp)
    · rename_i ha
      rw [if_neg ha]
      exact ih h

/-- The assignments that stay are in scope wherever the live columns are. -/
theorem Scoped.liveAssignments {needed visible visible' : List Text} {as : List Assignment}
    (h : Scoped visible as)
    (hl : ∀ name ∈ (liveAssignments needed as).2, name ∈ visible → name ∈ visible') :
    Scoped visible' (liveAssignments needed as).1 := by
  induction as generalizing visible visible' with
  | nil => trivial
  | cons a rest ih =>
    rw [liveAssignments_cons] at hl ⊢
    split at hl
    · rename_i ha
      rw [if_pos ha]
      refine ⟨fun name hn => hl name (List.mem_append_right _ hn) (h.1 name hn), ih h.2 ?_⟩
      intro name hn hv
      -- a name is visible to the rest as the target itself, or because it was already
      by_cases he : name = a.target
      · exact he ▸ List.mem_cons_self
      · have hmem : name ∈ visible := (List.mem_cons.mp hv).resolve_left he
        exact List.mem_cons_of_mem _ (hl name (List.mem_append_left _ (by simp [hn, he])) hmem)
    · rename_i ha
      rw [if_neg ha]
      refine ih h.2 fun name hn hv => hl name hn ?_
      rcases List.mem_cons.mp hv with rfl | hv
      · exact absurd hn ha
      · exact hv

/-! ## The checks survive on fewer columns -/

section Checks

variable {columns columns' : List Text}

theorem TableChecks.narrow {t : Table} (h : TableChecks t) (needed : List Text) :
    TableChecks { t with columns := keepOne t.columns needed } :=
  ⟨h.name, keepOne_ne_nil h.nonempty needed, h.qualifier,
    h.named.sublist (keepOne_sublist t.columns needed)⟩

theorem ExtendChecks.narrow {as : List Assignment} {partitionBy : List Text}
    {orderBy : List OrderTerm} (h : ExtendChecks columns as partitionBy orderBy)
    {needed : List Text} (hne : (liveAssignments needed as).1 ≠ [])
    (hs : ∀ name ∈ (liveAssignments needed as).2 ++ windowColumns partitionBy orderBy,
      name ∈ columns → name ∈ columns') :
    ExtendChecks columns' (liveAssignments needed as).1 partitionBy orderBy := by
  have hsub := liveAssignments_sublist needed as
  refine ⟨hne, fun a ha => h.targets a (hsub.subset ha), fun a ha => h.noInput a (hsub.subset ha),
    h.inScope.liveAssignments fun name hn => hs name (List.mem_append_left _ hn), ?_, ?_,
    h.partition⟩
  · exact fun name hn => hs name (List.mem_append_right _ hn) (h.window name hn)
  · exact fun name hn ht => h.unassigned name hn ((hsub.map Assignment.target).subset ht)

theorem ProjectChecks.narrow {groupBy : List Text} {aggregates : List Assignment}
    (h : ProjectChecks columns groupBy aggregates) {needed : List Text}
    (hs : ∀ name ∈ groupBy ++ (keepAggregates groupBy needed aggregates).flatMap Assignment.reads,
      name ∈ columns → name ∈ columns') :
    ProjectChecks columns' groupBy (keepAggregates groupBy needed aggregates) := by
  have hsub := keepAggregates_sublist groupBy needed aggregates
  refine ⟨?_, ?_, fun a ha => h.noInput a (hsub.subset ha), ?_,
    h.named.sublist ((List.Sublist.refl groupBy).append (hsub.map Assignment.target))⟩
  · intro he
    subst he
    exact keepAggregates_ne_nil (h.nonempty rfl) needed
  · exact fun name hn => hs name (List.mem_append_left _ hn) (h.groups name hn)
  · intro a ha name hn
    exact hs name (List.mem_append_right _ (List.mem_flatMap.mpr ⟨a, ha, hn⟩))
      (h.reads a (hsub.subset ha) name hn)

theorem RowChecks.narrow {predicate : Expr} (h : RowChecks columns predicate)
    (hs : ∀ name ∈ predicate.columns, name ∈ columns → name ∈ columns') :
    RowChecks columns' predicate :=
  ⟨h.noInput, h.nonempty, fun name hn => hs name hn (h.reads name hn)⟩

theorem ColumnChecks.narrow {chosen : List Text} (h : ColumnChecks columns chosen)
    {needed : List Text}
    (hs : ∀ name ∈ keepOne chosen needed, name ∈ columns → name ∈ columns') :
    ColumnChecks columns' (keepOne chosen needed) := by
  have hsub := keepOne_sublist chosen needed
  exact ⟨keepOne_ne_nil h.nonempty needed,
    fun name hn => hs name hn (h.known name (hsub.subset hn)), h.named.sublist hsub⟩

theorem OrderChecks.narrow {terms : List OrderTerm} {limit : Option Nat}
    (h : OrderChecks columns terms limit)
    (hs : ∀ name ∈ terms.map OrderTerm.column, name ∈ columns → name ∈ columns') :
    OrderChecks columns' terms limit :=
  ⟨h.nonempty, fun name hn => hs name hn (h.known name hn), h.named⟩

theorem RawChecks.narrow {used produced : List Text} {template : Expr}
    (h : RawChecks columns used produced template)
    (hs : ∀ name ∈ used ++ template.columns, name ∈ columns → name ∈ columns') :
    RawChecks columns' used produced template := by
  refine ⟨h.input, h.nonempty, fun name hn => hs name (List.mem_append_left _ hn) (h.known name hn),
    h.named, ?_⟩
  intro name hn
  rcases h.reads name hn with hc | hp
  · exact Or.inl (hs name (List.mem_append_right _ hn) hc)
  · exact Or.inr hp

theorem TransformChecks.narrow {used produced : List Text} {incoming outgoing : Text}
    (h : TransformChecks columns used produced incoming outgoing)
    (hs : ∀ name ∈ used, name ∈ columns → name ∈ columns') :
    TransformChecks columns' used produced incoming outgoing :=
  ⟨h.incomingNamed, h.outgoingNamed, h.distinct, h.nonempty,
    fun name hn => hs name hn (h.known name hn), h.inputs, h.named⟩

/-- A renaming of fewer columns gives each of them the name it had among all. -/
theorem map_renamed_filter (columns : List Text) (mapping : List Rename) :
    columns.map (renamed (mapping.filter fun r => columns.contains r.old)) =
      columns.map (renamed mapping) :=
  List.map_congr_left fun _ hn => renamed_filter hn

theorem RenameChecks.narrow {mapping : List Rename} (h : RenameChecks columns mapping)
    (hin : ∀ name ∈ columns', name ∈ columns) (hnd : columns'.Nodup) :
    RenameChecks columns' (mapping.filter fun r => columns'.contains r.old) := by
  have hsub : (mapping.filter fun r => columns'.contains r.old).Sublist mapping :=
    List.filter_sublist
  refine ⟨?_, h.olds.sublist (hsub.map Rename.old), h.news.sublist (hsub.map Rename.new), ?_⟩
  · intro name hn
    obtain ⟨r, hr, rfl⟩ := List.mem_map.mp hn
    simpa using (List.mem_filter.mp hr).2
  · rw [map_renamed_filter]
    -- the new names are apart because they were before any column was dropped
    refine h.named.of_subset ?_ (List.Nodup.map_on ?_ hnd)
    · intro name hn
      obtain ⟨old, ho, rfl⟩ := List.mem_map.mp hn
      exact List.mem_map.mpr ⟨old, hin old ho, rfl⟩
    · intro a ha b hb he
      exact List.inj_on_of_nodup_map h.named.nodup (hin a ha) (hin b hb) he

variable {left right left' right' collisions : List Text} {suffixes : Suffixes}

/-- The joined columns whose names are among `outputs`. -/
def usedColumns (left right collisions : List Text) (suffixes : Suffixes) (outputs : List Text) :
    List JoinColumn :=
  (joinColumns left right collisions suffixes).filter fun column => outputs.contains column.output

/-- The inputs of the columns that come from one side. -/
def sideInputs (fromLeft : Bool) (columns : List JoinColumn) : List Text :=
  (columns.filter fun column => column.fromLeft == fromLeft).map JoinColumn.input

theorem sideInputs_true (columns : List JoinColumn) :
    sideInputs true columns = (columns.filter JoinColumn.fromLeft).map JoinColumn.input := by
  simp [sideInputs]

theorem sideInputs_false (columns : List JoinColumn) :
    sideInputs false columns = (columns.filter fun column => !column.fromLeft).map JoinColumn.input := by
  simp [sideInputs]

theorem input_mem_sideInputs {columns : List JoinColumn} {c : JoinColumn} (h : c ∈ columns) :
    c.input ∈ sideInputs c.fromLeft columns :=
  List.mem_map.mpr ⟨c, List.mem_filter.mpr ⟨h, beq_self_eq_true _⟩, rfl⟩

/-- A joined column stays when its name is used, if each side keeps the inputs that are used. -/
theorem mem_joinColumns_of_used {outputs : List Text}
    (hl : ∀ name ∈ sideInputs true (usedColumns left right collisions suffixes outputs),
      name ∈ left → name ∈ left')
    (hr : ∀ name ∈ sideInputs false (usedColumns left right collisions suffixes outputs),
      name ∈ right → name ∈ right')
    {c : JoinColumn} (hc : c ∈ joinColumns left right collisions suffixes)
    (ho : c.output ∈ outputs) : c ∈ joinColumns left' right' collisions suffixes := by
  have hused : c ∈ usedColumns left right collisions suffixes outputs := by
    simp only [usedColumns, List.mem_filter, List.contains_eq_mem, decide_eq_true_eq]
    exact ⟨hc, ho⟩
  have hside := input_mem_sideInputs hused
  rw [mem_joinColumns] at hc ⊢
  refine ⟨?_, hc.2⟩
  have hin := hc.1
  cases hf : c.fromLeft with
  | true =>
    rw [hf] at hside hin
    exact hl _ hside hin
  | false =>
    rw [hf] at hside hin
    exact hr _ hside hin

theorem ThetaChecks.narrow {predicate : Expr}
    (h : ThetaChecks left right predicate suffixes collisions)
    (hl : ∀ name ∈ left', name ∈ left) (hr : ∀ name ∈ right', name ∈ right)
    (hln : left'.Nodup) (hrn : right'.Nodup)
    (hs : ∀ c ∈ joinColumns left right collisions suffixes, c.output ∈ predicate.columns →
      c ∈ joinColumns left' right' collisions suffixes) :
    ThetaChecks left' right' predicate suffixes collisions := by
  refine ⟨h.apart, h.named.of_subset ?_ (nodup_join_outputs h.named.nodup hl hr hln hrn), h.noInput,
    ?_⟩
  · intro name hn
    obtain ⟨c, hc, rfl⟩ := List.mem_map.mp hn
    exact List.mem_map.mpr ⟨c, joinColumns_mono hl hr hc, rfl⟩
  · intro name hn
    obtain ⟨c, hc, rfl⟩ := List.mem_map.mp (h.reads name hn)
    exact List.mem_map.mpr ⟨c, hs c hc hn, rfl⟩

end Checks

/-- The same table with some of its columns, at least one, in their order. -/
structure Table.Exposes (t part : Table) : Prop where
  name : part.name = t.name
  qualifier : part.qualifier = t.qualifier
  nonempty : part.columns ≠ []
  columns : part.columns.Sublist t.columns

namespace Tree

/-! ## Narrowing without checks -/

/-- The tree that narrowing builds where no check fails. -/
def narrowed (tree : Tree) (wanted : List Text) : Tree :=
  let needed := wanted.filter tree.schema.contains
  match tree with
  | table t => table { t with columns := keepOne t.columns needed }
  | extend source assignments partitionBy order =>
    let kept := (liveAssignments needed assignments).1
    let live := (liveAssignments needed assignments).2
    if kept.isEmpty then source.narrowed live
    else extend (source.narrowed (live ++ windowColumns partitionBy order)) kept partitionBy order
  | project source groupBy aggregates =>
    let kept := keepAggregates groupBy needed aggregates
    project (source.narrowed (groupBy ++ kept.flatMap Assignment.reads)) groupBy kept
  | naturalJoin left right type =>
    let keys := sharedColumns left.schema right.schema
    naturalJoin (left.narrowed (keys ++ needed)) (right.narrowed (keys ++ needed)) type
  | thetaJoin left right predicate type suffixes collisions =>
    let used := usedColumns left.schema right.schema collisions suffixes (needed ++ predicate.columns)
    thetaJoin (left.narrowed (sideInputs true used)) (right.narrowed (sideInputs false used)) predicate type
      suffixes collisions
  | selectRows source predicate =>
    selectRows (source.narrowed (needed ++ predicate.columns)) predicate
  | selectColumns source columns =>
    let columns := keepOne columns needed
    let child := source.narrowed columns
    if child.schema = columns then child else selectColumns child columns
  | renameColumns source mapping =>
    let child := source.narrowed (needed.map (oldName mapping))
    let mapping := mapping.filter fun r => child.schema.contains r.old
    if mapping.isEmpty then child else renameColumns child mapping
  | orderBy source terms limit =>
    orderBy (source.narrowed (needed ++ terms.map OrderTerm.column)) terms limit
  | rawStatement source used produced template =>
    rawStatement (source.narrowed (used ++ template.columns)) used produced template
  | externalTransform source used produced transform incoming outgoing temporary =>
    externalTransform (source.narrowed used) used produced transform incoming outgoing temporary

/-- What a rebuilt node owes its parent: it is valid, it has the wanted columns that the node has, and
it has no others than the node. -/
structure Narrows (t : Tree) (wanted : List Text) (t' : Tree) : Prop where
  valid : t'.Valid
  keeps : ∀ name ∈ wanted, name ∈ t.schema → name ∈ t'.schema
  within : ∀ name ∈ t'.schema, name ∈ t.schema

variable {t source left right source' left' right' : Tree} {wanted : List Text}

theorem mem_needed {columns : List Text} {name : Text} :
    name ∈ wanted.filter columns.contains ↔ name ∈ wanted ∧ name ∈ columns := by
  simp

/-- A tree over valid inputs is valid once its root is. -/
theorem Checked.valid₁ {c : Tree} (h : t.Checked) (hc : t.children = [c]) (hv : c.Valid) :
    t.Valid := by
  rw [valid_iff, hc]
  exact ⟨h, by simpa using hv⟩

theorem Checked.valid₂ {c c' : Tree} (h : t.Checked) (hc : t.children = [c, c']) (hv : c.Valid)
    (hv' : c'.Valid) : t.Valid := by
  rw [valid_iff, hc]
  exact ⟨h, by simpa using ⟨hv, hv'⟩⟩

theorem Narrows.of_table {t : Table} (h : (table t).Valid) :
    (table t).Narrows wanted
      (table { t with columns := keepOne t.columns (wanted.filter t.columns.contains) }) := by
  refine ⟨valid_iff.mpr ⟨h.checked.narrow _, by simp [children]⟩, ?_, ?_⟩
  · intro name hw hn
    exact mem_keepOne hn (mem_needed.mpr ⟨hw, hn⟩)
  · exact fun name hn => (keepOne_sublist _ _).subset hn

section Extend

variable {as : List Assignment} {partitionBy : List Text} {order : List OrderTerm}

/-- Without an assignment that matters the input stands for the extension. -/
theorem Narrows.of_extend_dropped
    (hnil : (liveAssignments (wanted.filter (extend source as partitionBy order).schema.contains)
      as).1 = [])
    (hs : source.Narrows (wanted.filter (extend source as partitionBy order).schema.contains)
      source') :
    (extend source as partitionBy order).Narrows wanted source' := by
  refine ⟨hs.valid, ?_, fun name hn => mem_appendNew.mpr (Or.inl (hs.within name hn))⟩
  intro name hw hn
  have hneed := mem_needed.mpr ⟨hw, hn⟩
  rcases mem_appendNew.mp hn with hsrc | ht
  · exact hs.keeps name hneed hsrc
  · have hkept := mem_kept_of_mem_targets hneed ht
    rw [hnil] at hkept
    exact absurd hkept (by simp)

theorem Narrows.of_extend (h : (extend source as partitionBy order).Valid) {needed : List Text}
    (hneeded : needed = wanted.filter (extend source as partitionBy order).schema.contains)
    (hne : (liveAssignments needed as).1 ≠ [])
    (hs : source.Narrows ((liveAssignments needed as).2 ++ windowColumns partitionBy order)
      source') :
    (extend source as partitionBy order).Narrows wanted
      (extend source' (liveAssignments needed as).1 partitionBy order) := by
  refine ⟨Checked.valid₁ (h.checked.narrow hne hs.keeps) rfl hs.valid, ?_, ?_⟩
  · intro name hw hn
    have hneed : name ∈ needed := hneeded ▸ mem_needed.mpr ⟨hw, hn⟩
    -- what is wanted is still written here, or is a live column of the source
    rcases mem_live_or_kept hneed as with hlive | hkept
    · rcases mem_appendNew.mp hn with hsrc | ht
      · exact mem_appendNew.mpr (Or.inl (hs.keeps name (List.mem_append_left _ hlive) hsrc))
      · exact mem_appendNew.mpr (Or.inr (mem_kept_of_mem_targets hneed ht))
    · exact mem_appendNew.mpr (Or.inr hkept)
  · intro name hn
    rcases mem_appendNew.mp hn with hsrc | ht
    · exact mem_appendNew.mpr (Or.inl (hs.within name hsrc))
    · exact mem_appendNew.mpr
        (Or.inr (((liveAssignments_sublist needed as).map Assignment.target).subset ht))

end Extend

theorem Narrows.of_project {groupBy : List Text} {aggregates : List Assignment}
    (h : (project source groupBy aggregates).Valid) {needed : List Text}
    (hneeded : needed = wanted.filter (project source groupBy aggregates).schema.contains)
    (hs : source.Narrows
      (groupBy ++ (keepAggregates groupBy needed aggregates).flatMap Assignment.reads) source') :
    (project source groupBy aggregates).Narrows wanted
      (project source' groupBy (keepAggregates groupBy needed aggregates)) := by
  refine ⟨Checked.valid₁ (h.checked.narrow hs.keeps) rfl hs.valid, ?_, ?_⟩
  · intro name hw hn
    have hneed : name ∈ needed := hneeded ▸ mem_needed.mpr ⟨hw, hn⟩
    rcases List.mem_append.mp hn with hg | ht
    · exact List.mem_append_left _ hg
    · obtain ⟨a, ha, rfl⟩ := List.mem_map.mp ht
      exact List.mem_append_right _ (List.mem_map.mpr ⟨a, mem_keepAggregates ha hneed, rfl⟩)
  · intro name hn
    have hsub := (keepAggregates_sublist groupBy needed aggregates).map Assignment.target
    exact ((List.Sublist.refl groupBy).append hsub).subset hn

/-- Both sides keep the shared columns, and what they share beyond them they shared before. -/
theorem Narrows.mem_shared {keys : List Text}
    (hkeys : keys = sharedColumns left.schema right.schema)
    (hl : left.Narrows (keys ++ wanted) left') (hr : right.Narrows (keys ++ wanted) right')
    {name : Text} :
    name ∈ sharedColumns left'.schema right'.schema ↔
      name ∈ sharedColumns left.schema right.schema := by
  rw [mem_sharedColumns]
  constructor
  · intro h
    obtain ⟨hnl, hnr⟩ := h
    exact mem_sharedColumns.mpr ⟨hl.within name hnl, hr.within name hnr⟩
  · intro hn
    have hmem : name ∈ keys ++ wanted := List.mem_append_left _ (hkeys ▸ hn)
    rw [mem_sharedColumns] at hn
    exact ⟨hl.keeps name hmem hn.1, hr.keeps name hmem hn.2⟩

theorem Narrows.of_naturalJoin {type : JoinType} (h : (naturalJoin left right type).Valid)
    {needed keys : List Text}
    (hneeded : needed = wanted.filter (naturalJoin left right type).schema.contains)
    (hkeys : keys = sharedColumns left.schema right.schema)
    (hl : left.Narrows (keys ++ needed) left') (hr : right.Narrows (keys ++ needed) right') :
    (naturalJoin left right type).Narrows wanted (naturalJoin left' right' type) := by
  refine ⟨Checked.valid₂ ?_ rfl hl.valid hr.valid, ?_, ?_⟩
  · -- one shared column is enough, and the keys are asked of both sides
    obtain ⟨key, hk⟩ := List.exists_mem_of_ne_nil _ h.checked
    exact List.ne_nil_of_mem ((Narrows.mem_shared hkeys hl hr).mpr hk)
  · intro name hw hn
    have hneed : name ∈ keys ++ needed :=
      List.mem_append_right _ (hneeded ▸ mem_needed.mpr ⟨hw, hn⟩)
    rcases mem_naturalColumns.mp hn with hnl | hnr
    · exact mem_naturalColumns.mpr (Or.inl (hl.keeps name hneed hnl))
    · exact mem_naturalColumns.mpr (Or.inr (hr.keeps name hneed hnr))
  · intro name hn
    rcases mem_naturalColumns.mp hn with hnl | hnr
    · exact mem_naturalColumns.mpr (Or.inl (hl.within name hnl))
    · exact mem_naturalColumns.mpr (Or.inr (hr.within name hnr))

theorem Narrows.of_thetaJoin {predicate : Expr} {type : JoinType} {suffixes : Suffixes}
    {collisions : List Text}
    (h : (thetaJoin left right predicate type suffixes collisions).Valid)
    {needed : List Text} {used : List JoinColumn}
    (hneeded : needed =
      wanted.filter (thetaJoin left right predicate type suffixes collisions).schema.contains)
    (hused : used = usedColumns left.schema right.schema collisions suffixes
      (needed ++ predicate.columns))
    (hl : left.Narrows (sideInputs true used) left') (hr : right.Narrows (sideInputs false used) right') :
    (thetaJoin left right predicate type suffixes collisions).Narrows wanted
      (thetaJoin left' right' predicate type suffixes collisions) := by
  subst hused
  -- every join column whose output is needed survives, as its input does
  have hstays : ∀ c ∈ joinColumns left.schema right.schema collisions suffixes,
      c.output ∈ needed ++ predicate.columns →
        c ∈ joinColumns left'.schema right'.schema collisions suffixes :=
    fun c hc ho => mem_joinColumns_of_used hl.keeps hr.keeps hc ho
  refine ⟨Checked.valid₂ ?_ rfl hl.valid hr.valid, ?_, ?_⟩
  · exact h.checked.narrow hl.within hr.within hl.valid.named.nodup hr.valid.named.nodup
      fun c hc ho => hstays c hc (List.mem_append_right _ ho)
  · intro name hw hn
    have hneed : name ∈ needed := hneeded ▸ mem_needed.mpr ⟨hw, hn⟩
    obtain ⟨c, hc, rfl⟩ := List.mem_map.mp hn
    exact List.mem_map.mpr ⟨c, hstays c hc (List.mem_append_left _ hneed), rfl⟩
  · intro name hn
    obtain ⟨c, hc, rfl⟩ := List.mem_map.mp hn
    exact List.mem_map.mpr ⟨c, joinColumns_mono hl.within hr.within hc, rfl⟩

theorem Narrows.of_selectRows {predicate : Expr} (h : (selectRows source predicate).Valid)
    (hs : source.Narrows (wanted.filter source.schema.contains ++ predicate.columns) source') :
    (selectRows source predicate).Narrows wanted (selectRows source' predicate) := by
  refine ⟨Checked.valid₁ ?_ rfl hs.valid, ?_, hs.within⟩
  · exact h.checked.narrow fun name hn => hs.keeps name (List.mem_append_right _ hn)
  · exact fun name hw hn => hs.keeps name (List.mem_append_left _ (mem_needed.mpr ⟨hw, hn⟩)) hn

theorem Narrows.of_orderBy {terms : List OrderTerm} {limit : Option Nat}
    (h : (orderBy source terms limit).Valid)
    (hs : source.Narrows (wanted.filter source.schema.contains ++ terms.map OrderTerm.column)
      source') :
    (orderBy source terms limit).Narrows wanted (orderBy source' terms limit) := by
  refine ⟨Checked.valid₁ ?_ rfl hs.valid, ?_, hs.within⟩
  · exact h.checked.narrow fun name hn => hs.keeps name (List.mem_append_right _ hn)
  · exact fun name hw hn => hs.keeps name (List.mem_append_left _ (mem_needed.mpr ⟨hw, hn⟩)) hn

theorem Narrows.of_selectColumns {columns needed : List Text}
    (h : (selectColumns source columns).Valid) (hneeded : needed = wanted.filter columns.contains)
    (hs : source.Narrows (keepOne columns needed) source') :
    (selectColumns source columns).Narrows wanted (selectColumns source' (keepOne columns needed)) := by
  refine ⟨Checked.valid₁ (h.checked.narrow hs.keeps) rfl hs.valid, ?_, ?_⟩
  · exact fun name hw hn => mem_keepOne hn (hneeded ▸ mem_needed.mpr ⟨hw, hn⟩)
  · exact fun name hn => (keepOne_sublist columns needed).subset hn

/-- An input that has just the chosen columns stands for the choice. -/
theorem Narrows.of_selectColumns_dropped {columns needed : List Text}
    (hneeded : needed = wanted.filter columns.contains)
    (hs : source.Narrows (keepOne columns needed) source')
    (hsame : source'.schema = keepOne columns needed) :
    (selectColumns source columns).Narrows wanted source' := by
  refine ⟨hs.valid, ?_, ?_⟩
  · intro name hw hn
    rw [hsame]
    exact mem_keepOne hn (hneeded ▸ mem_needed.mpr ⟨hw, hn⟩)
  · intro name hn
    rw [hsame] at hn
    exact (keepOne_sublist columns needed).subset hn

section Rename

variable {mapping : List Rename} {needed : List Text}

/-- The columns of a renamed input that kept what was asked of it. -/
theorem Narrows.mem_map_renamed (h : (renameColumns source mapping).Valid)
    (hneeded : needed = wanted.filter (renameColumns source mapping).schema.contains)
    (hs : source.Narrows (needed.map (oldName mapping)) source') :
    (∀ name ∈ wanted, name ∈ source.schema.map (renamed mapping) →
        name ∈ source'.schema.map (renamed mapping)) ∧
      ∀ name ∈ source'.schema.map (renamed mapping), name ∈ source.schema.map (renamed mapping) := by
  have hc : RenameChecks source.schema mapping := h.checked
  constructor
  · intro name hw hn
    have hneed : name ∈ needed := hneeded ▸ mem_needed.mpr ⟨hw, hn⟩
    obtain ⟨old, ho, rfl⟩ := List.mem_map.mp hn
    -- the names asked below are the old names of those asked above
    have hold := oldName_renamed hc.known hc.olds.nodup hc.news.nodup hc.named.nodup ho
    have hmem : old ∈ needed.map (oldName mapping) := List.mem_map.mpr ⟨_, hneed, hold⟩
    exact List.mem_map.mpr ⟨old, hs.keeps old hmem ho, rfl⟩
  · intro name hn
    obtain ⟨old, ho, rfl⟩ := List.mem_map.mp hn
    exact List.mem_map.mpr ⟨old, hs.within old ho, rfl⟩

theorem Narrows.of_renameColumns (h : (renameColumns source mapping).Valid)
    (hneeded : needed = wanted.filter (renameColumns source mapping).schema.contains)
    (hs : source.Narrows (needed.map (oldName mapping)) source') :
    (renameColumns source mapping).Narrows wanted
      (renameColumns source' (mapping.filter fun r => source'.schema.contains r.old)) := by
  have hschema : (renameColumns source'
      (mapping.filter fun r => source'.schema.contains r.old)).schema =
        source'.schema.map (renamed mapping) := map_renamed_filter source'.schema mapping
  have hmem := Narrows.mem_map_renamed h hneeded hs
  refine ⟨Checked.valid₁ (h.checked.narrow hs.within hs.valid.named.nodup) rfl hs.valid, ?_, ?_⟩
  · rw [hschema]
    exact hmem.1
  · rw [hschema]
    exact hmem.2

/-- An input of which no column is renamed stands for the renaming. -/
theorem Narrows.of_renameColumns_dropped (h : (renameColumns source mapping).Valid)
    (hneeded : needed = wanted.filter (renameColumns source mapping).schema.contains)
    (hs : source.Narrows (needed.map (oldName mapping)) source')
    (hnil : (mapping.filter fun r => source'.schema.contains r.old) = []) :
    (renameColumns source mapping).Narrows wanted source' := by
  have hschema : source'.schema.map (renamed mapping) = source'.schema := by
    rw [← map_renamed_filter source'.schema mapping, hnil]
    exact List.map_id _
  have hmem := Narrows.mem_map_renamed h hneeded hs
  rw [hschema] at hmem
  exact ⟨hs.valid, hmem.1, hmem.2⟩

end Rename

theorem Narrows.of_rawStatement {used produced : List Text} {template : Expr}
    (h : (rawStatement source used produced template).Valid)
    (hs : source.Narrows (used ++ template.columns) source') :
    (rawStatement source used produced template).Narrows wanted
      (rawStatement source' used produced template) :=
  ⟨Checked.valid₁ (h.checked.narrow hs.keeps) rfl hs.valid, fun _ _ hn => hn, fun _ hn => hn⟩

theorem Narrows.of_externalTransform {used produced : List Text} {transform : Transform}
    {incoming outgoing : Text} {temporary : Bool}
    (h : (externalTransform source used produced transform incoming outgoing temporary).Valid)
    (hs : source.Narrows used source') :
    (externalTransform source used produced transform incoming outgoing temporary).Narrows wanted
      (externalTransform source' used produced transform incoming outgoing temporary) :=
  ⟨Checked.valid₁ (h.checked.narrow hs.keeps) rfl hs.valid, fun _ _ hn => hn, fun _ hn => hn⟩

/-- **The invariant of narrowing**, for every valid tree and whatever is wanted of it. -/
theorem narrows_narrowed (h : t.Valid) (wanted : List Text) : t.Narrows wanted (t.narrowed wanted) := by
  induction t generalizing wanted with
  | table t => exact Narrows.of_table h
  | extend source as partitionBy order ih =>
    have hs := h.input (c := source) (by simp [children])
    simp only [narrowed]
    split
    · -- no assignment is live, so the node is dropped and its source is the result
      rename_i hnil
      rw [List.isEmpty_iff] at hnil
      rw [live_eq_of_kept_nil hnil]
      exact Narrows.of_extend_dropped hnil (ih hs _)
    · rename_i hne
      rw [List.isEmpty_iff] at hne
      exact Narrows.of_extend h rfl hne (ih hs _)
  | project source groupBy aggregates ih =>
    exact Narrows.of_project h rfl (ih (h.input (by simp [children])) _)
  | naturalJoin left right type ihl ihr =>
    exact Narrows.of_naturalJoin h rfl rfl (ihl (h.input (by simp [children])) _)
      (ihr (h.input (by simp [children])) _)
  | thetaJoin left right predicate type suffixes collisions ihl ihr =>
    exact Narrows.of_thetaJoin h rfl rfl (ihl (h.input (by simp [children])) _)
      (ihr (h.input (by simp [children])) _)
  | selectRows source predicate ih =>
    exact Narrows.of_selectRows h (ih (h.input (by simp [children])) _)
  | selectColumns source columns ih =>
    have hs := h.input (c := source) (by simp [children])
    simp only [narrowed]
    split
    · -- the narrowed source has the listed columns already
      rename_i hsame
      exact Narrows.of_selectColumns_dropped rfl (ih hs _) hsame
    · exact Narrows.of_selectColumns h rfl (ih hs _)
  | renameColumns source mapping ih =>
    have hs := h.input (c := source) (by simp [children])
    simp only [narrowed]
    split
    · rename_i hnil
      rw [List.isEmpty_iff] at hnil
      exact Narrows.of_renameColumns_dropped h rfl (ih hs _) hnil
    · exact Narrows.of_renameColumns h rfl (ih hs _)
  | orderBy source terms limit ih =>
    exact Narrows.of_orderBy h (ih (h.input (by simp [children])) _)
  | rawStatement source used produced template ih =>
    exact Narrows.of_rawStatement h (ih (h.input (by simp [children])) _)
  | externalTransform source used produced transform incoming outgoing temporary ih =>
    exact Narrows.of_externalTransform h (ih (h.input (by simp [children])) _)

/-! ## The checks of the rebuilt nodes -/

/-- **Narrowing a valid tree succeeds**: no check of a rebuilt node fails. -/
theorem narrowTo_eq (h : t.Valid) (wanted : List Text) :
    t.narrowTo wanted = .ok (t.narrowed wanted) := by
  -- the rebuilt node is valid, which is all that its builder asks for
  induction t generalizing wanted with
  | table t =>
    have hchecked := (narrows_narrowed h wanted).valid.checked
    simp only [narrowTo, narrowed] at hchecked ⊢
    split
    · rename_i hsame
      rw [hsame]
    · exact Pipeline.table_ok_iff.mpr ⟨hchecked, rfl⟩
  | extend source as partitionBy order ih =>
    have hs := h.input (c := source) (by simp [children])
    have hchecked := (narrows_narrowed h wanted).valid.checked
    simp only [narrowTo, narrowed] at hchecked ⊢
    split
    · exact ih hs _
    · rename_i hne
      rw [if_neg hne] at hchecked
      rw [ih hs]
      exact Pipeline.extend_ok_iff.mpr ⟨hchecked, rfl⟩
  | project source groupBy aggregates ih =>
    have hs := h.input (c := source) (by simp [children])
    have hchecked := (narrows_narrowed h wanted).valid.checked
    rw [narrowTo]
    simp only [ih hs]
    exact Pipeline.project_ok_iff.mpr ⟨hchecked, rfl⟩
  | naturalJoin left right type ihl ihr =>
    have hchecked := (narrows_narrowed h wanted).valid.checked
    rw [narrowTo]
    simp only [ihl (h.input (by simp [children])), ihr (h.input (by simp [children]))]
    exact Pipeline.naturalJoin_ok_iff.mpr ⟨hchecked, rfl⟩
  | thetaJoin left right predicate type suffixes collisions ihl ihr =>
    have hchecked := (narrows_narrowed h wanted).valid.checked
    rw [narrowTo, ← sideInputs_true, ← sideInputs_false]
    simp only [ihl (h.input (by simp [children])), ihr (h.input (by simp [children]))]
    exact Pipeline.thetaJoinWith_ok_iff.mpr ⟨hchecked, rfl⟩
  | selectRows source predicate ih =>
    have hchecked := (narrows_narrowed h wanted).valid.checked
    rw [narrowTo]
    simp only [ih (h.input (by simp [children]))]
    exact Pipeline.selectRows_ok_iff.mpr ⟨hchecked, rfl⟩
  | selectColumns source columns ih =>
    have hs := h.input (c := source) (by simp [children])
    have hchecked := (narrows_narrowed h wanted).valid.checked
    simp only [narrowTo, narrowed] at hchecked ⊢
    refine bind_ok_iff.mpr ⟨_, ih hs _, ?_⟩
    split
    · rfl
    · rename_i hne
      rw [if_neg hne] at hchecked
      exact Pipeline.selectColumns_ok_iff.mpr ⟨hchecked, rfl⟩
  | renameColumns source mapping ih =>
    have hs := h.input (c := source) (by simp [children])
    have hchecked := (narrows_narrowed h wanted).valid.checked
    simp only [narrowTo, narrowed] at hchecked ⊢
    refine bind_ok_iff.mpr ⟨_, ih hs _, ?_⟩
    split
    · rfl
    · rename_i hne
      rw [if_neg hne] at hchecked
      exact Pipeline.renameColumns_ok_iff.mpr ⟨hchecked, rfl⟩
  | orderBy source terms limit ih =>
    have hchecked := (narrows_narrowed h wanted).valid.checked
    rw [narrowTo]
    simp only [ih (h.input (by simp [children]))]
    exact Pipeline.orderBy_ok_iff.mpr ⟨hchecked, rfl⟩
  | rawStatement source used produced template ih =>
    have hchecked := (narrows_narrowed h wanted).valid.checked
    rw [narrowTo]
    simp only [ih (h.input (by simp [children]))]
    exact Pipeline.rawStatement_ok_iff.mpr ⟨hchecked, rfl⟩
  | externalTransform source used produced transform incoming outgoing temporary ih =>
    have hchecked := (narrows_narrowed h wanted).valid.checked
    rw [narrowTo]
    simp only [ih (h.input (by simp [children]))]
    exact Pipeline.externalTransform_ok_iff.mpr ⟨transform, rfl, hchecked, rfl⟩

/-! ## The tables of a narrowed tree -/

/-- A narrowed tree reads the tables of the tree, in the same places. -/
theorem tables_narrowed (h : t.Valid) (wanted : List Text) :
    List.Forall₂ Table.Exposes t.tables (t.narrowed wanted).tables := by
  induction t generalizing wanted with
  | table t =>
    -- a table never loses its last column
    refine .cons ⟨rfl, rfl, keepOne_ne_nil ?_ _, keepOne_sublist _ _⟩ .nil
    exact TableChecks.nonempty h.checked
  | extend source as partitionBy order ih =>
    have hs := h.input (c := source) (by simp [children])
    simp only [narrowed]
    split
    · exact ih hs _
    · exact ih hs _
  | naturalJoin left right type ihl ihr =>
    exact List.rel_append (ihl (h.input (by simp [children])) _)
      (ihr (h.input (by simp [children])) _)
  | thetaJoin left right predicate type suffixes collisions ihl ihr =>
    exact List.rel_append (ihl (h.input (by simp [children])) _)
      (ihr (h.input (by simp [children])) _)
  | selectColumns source columns ih =>
    have hs := h.input (c := source) (by simp [children])
    simp only [narrowed]
    split
    · exact ih hs _
    · exact ih hs _
  | renameColumns source mapping ih =>
    have hs := h.input (c := source) (by simp [children])
    simp only [narrowed]
    split
    · exact ih hs _
    · exact ih hs _
  | project source _ _ ih | selectRows source _ ih | orderBy source _ _ ih
  | rawStatement source _ _ _ ih | externalTransform source _ _ _ _ _ _ ih =>
    exact ih (h.input (by simp [children])) _

end Tree

end SqlPipeline
