import SqlPipeline.Proofs.Construction
import SqlPipeline.Tree.Format

/-!
# Narrowing again

A second pass asks of each node what the first pass has left to be asked of it. The
columns that come out of a node were kept because they were wanted, and they are
wanted again, so they stay. There is one exception. Where no column was wanted, one was
kept because a relation has to have one, and a choice of columns that asked for just
this one may have disappeared in the first pass. In the second pass nobody asks for it,
and an extension that only computes this column is dropped.

So a second pass drops some extensions of a single column (`Tree.Sheds`) and changes
nothing else, and a third pass changes nothing at all. `Tree.Settles` says both of a
tree and the columns wanted of it, and one induction over the tree that was narrowed
first proves it.
-/

namespace SqlPipeline

/-! ## Lists that want the same columns -/

/-- The two lists want the same of the columns. -/
def WantSame (columns wanted wanted' : List Text) : Prop :=
  ∀ name ∈ columns, name ∈ wanted ↔ name ∈ wanted'

section WantSame

variable {columns wanted wanted' : List Text}

theorem WantSame.refl (columns wanted : List Text) : WantSame columns wanted wanted :=
  fun _ _ => Iff.rfl

theorem WantSame.needed (h : WantSame columns wanted wanted') (name : Text) :
    name ∈ wanted.filter columns.contains ↔ name ∈ wanted'.filter columns.contains := by
  rw [Tree.mem_needed, Tree.mem_needed]
  constructor
  · exact fun hn => ⟨(h name hn.2).mp hn.1, hn.2⟩
  · exact fun hn => ⟨(h name hn.2).mpr hn.1, hn.2⟩

theorem WantSame.append {reads reads' : List Text} (h : WantSame columns wanted wanted')
    (hr : WantSame columns reads reads') : WantSame columns (wanted ++ reads) (wanted' ++ reads') := by
  intro name hn
  rw [List.mem_append, List.mem_append, h name hn, hr name hn]

end WantSame

/-! ## Keeping what was kept -/

theorem keepOne_congr {columns needed needed' : List Text} (h : WantSame columns needed needed') :
    keepOne columns needed = keepOne columns needed' := by
  have hfilter : columns.filter needed.contains = columns.filter needed'.contains :=
    List.filter_congr fun name hn => by simpa using h name hn
  rw [keepOne, keepOne, hfilter]

/-- What is kept is needed, unless it is one column that stands in for none. -/
theorem keepOne_needed_or_single (columns needed : List Text) (h : columns ≠ []) :
    (∀ name ∈ keepOne columns needed, name ∈ needed) ∨ ∃ c, keepOne columns needed = [c] := by
  unfold keepOne
  split
  · obtain ⟨c, rest, rfl⟩ := List.exists_cons_of_ne_nil h
    exact Or.inr ⟨c, rfl⟩
  · exact Or.inl fun name hn => by simpa using (List.mem_filter.mp hn).2

theorem keepOne_eq_self {columns needed : List Text}
    (h : (∀ name ∈ columns, name ∈ needed) ∨ ∃ c, columns = [c]) :
    keepOne columns needed = columns := by
  unfold keepOne
  rcases h with hall | ⟨c, rfl⟩
  · have hfilter : columns.filter needed.contains = columns :=
      List.filter_eq_self.mpr fun name hn => by simpa using hall name hn
    rw [hfilter]
    cases columns <;> rfl
  · by_cases hc : c ∈ needed <;> simp [hc]

theorem keepAggregates_congr {groupBy needed needed' : List Text} {aggregates : List Assignment}
    (h : ∀ name, name ∈ needed ↔ name ∈ needed') :
    keepAggregates groupBy needed aggregates = keepAggregates groupBy needed' aggregates := by
  have hfilter : (aggregates.filter fun a => needed.contains a.target) =
      aggregates.filter fun a => needed'.contains a.target :=
    List.filter_congr fun a _ => by simpa using h a.target
  rw [keepAggregates, keepAggregates, hfilter]

theorem keepAggregates_needed_or_single (groupBy needed : List Text) (aggregates : List Assignment) :
    (∀ a ∈ keepAggregates groupBy needed aggregates, a.target ∈ needed) ∨
      groupBy = [] ∧ ∃ a, keepAggregates groupBy needed aggregates = [a] := by
  unfold keepAggregates
  split
  · split
    · rename_i hg
      cases aggregates with
      | nil => exact Or.inl (by simp)
      | cons a rest => exact Or.inr ⟨List.isEmpty_iff.mp hg, a, rfl⟩
    · exact Or.inl (by simp)
  · exact Or.inl fun a ha => by simpa using (List.mem_filter.mp ha).2

theorem keepAggregates_eq_self {groupBy needed : List Text} {aggregates : List Assignment}
    (h : (∀ a ∈ aggregates, a.target ∈ needed) ∨ groupBy = [] ∧ ∃ a, aggregates = [a]) :
    keepAggregates groupBy needed aggregates = aggregates := by
  unfold keepAggregates
  rcases h with hall | ⟨rfl, a, rfl⟩
  · have hfilter : (aggregates.filter fun a => needed.contains a.target) = aggregates :=
      List.filter_eq_self.mpr fun a ha => by simpa using hall a ha
    rw [hfilter]
    cases aggregates with
    | nil => simp
    | cons a rest => rfl
  · by_cases ha : a.target ∈ needed <;> simp [ha]

theorem liveAssignments_congr {needed needed' : List Text} (h : ∀ name, name ∈ needed ↔ name ∈ needed')
    (as : List Assignment) :
    (liveAssignments needed as).1 = (liveAssignments needed' as).1 ∧
      ∀ name, name ∈ (liveAssignments needed as).2 ↔ name ∈ (liveAssignments needed' as).2 := by
  induction as with
  | nil => exact ⟨rfl, h⟩
  | cons a rest ih =>
    obtain ⟨hkept, hlive⟩ := ih
    rw [liveAssignments_cons, liveAssignments_cons]
    by_cases ha : a.target ∈ (liveAssignments needed rest).2
    · rw [if_pos ha, if_pos ((hlive _).mp ha)]
      refine ⟨by rw [hkept], fun name => ?_⟩
      simp [hlive name]
    · rw [if_neg ha, if_neg fun ha' => ha ((hlive _).mpr ha')]
      exact ⟨hkept, hlive⟩

/-- Of the assignments that stay, all stay. -/
theorem liveAssignments_kept (needed : List Text) (as : List Assignment) :
    liveAssignments needed (liveAssignments needed as).1 = liveAssignments needed as := by
  induction as with
  | nil => rfl
  | cons a rest ih =>
    rw [liveAssignments_cons]
    split
    · rename_i ha
      rw [liveAssignments_cons, ih, if_pos ha]
    · exact ih

/-- Where nothing is needed, no assignment stays. -/
theorem liveAssignments_nil (as : List Assignment) : liveAssignments [] as = ([], []) := by
  induction as with
  | nil => rfl
  | cons a rest ih =>
    rw [liveAssignments_cons, ih]
    exact if_neg (by simp)

namespace Tree

/-! ## What a second pass does -/

/-- The second tree is the first without some of the extensions that have a single column, which their
input has too. -/
inductive Sheds : Tree → Tree → Prop where
  | table (t : Table) : Sheds (table t) (table t)
  | extend {s s' : Tree} {as : List Assignment} {partitionBy : List Text} {order : List OrderTerm} :
      Sheds s s' → Sheds (extend s as partitionBy order) (extend s' as partitionBy order)
  | dropped {s s' : Tree} {as : List Assignment} {partitionBy : List Text} {order : List OrderTerm}
      {c : Text} (single : (Tree.extend s as partitionBy order).schema = [c])
      (input : s.schema = [c]) :
      Sheds s s' → Sheds (extend s as partitionBy order) s'
  | project {s s' : Tree} {groupBy : List Text} {aggregates : List Assignment} :
      Sheds s s' → Sheds (project s groupBy aggregates) (project s' groupBy aggregates)
  | naturalJoin {l l' r r' : Tree} {type : JoinType} :
      Sheds l l' → Sheds r r' → Sheds (naturalJoin l r type) (naturalJoin l' r' type)
  | thetaJoin {l l' r r' : Tree} {predicate : Expr} {type : JoinType} {suffixes : Suffixes}
      {collisions : List Text} :
      Sheds l l' → Sheds r r' →
      Sheds (thetaJoin l r predicate type suffixes collisions)
        (thetaJoin l' r' predicate type suffixes collisions)
  | selectRows {s s' : Tree} {predicate : Expr} :
      Sheds s s' → Sheds (selectRows s predicate) (selectRows s' predicate)
  | selectColumns {s s' : Tree} {columns : List Text} :
      Sheds s s' → Sheds (selectColumns s columns) (selectColumns s' columns)
  | renameColumns {s s' : Tree} {mapping : List Rename} :
      Sheds s s' → Sheds (renameColumns s mapping) (renameColumns s' mapping)
  | orderBy {s s' : Tree} {terms : List OrderTerm} {limit : Option Nat} :
      Sheds s s' → Sheds (orderBy s terms limit) (orderBy s' terms limit)
  | rawStatement {s s' : Tree} {used produced : List Text} {template : Expr} :
      Sheds s s' →
      Sheds (rawStatement s used produced template) (rawStatement s' used produced template)
  | externalTransform {s s' : Tree} {used produced : List Text} {transform : Transform}
      {incoming outgoing : Text} {temporary : Bool} :
      Sheds s s' →
      Sheds (externalTransform s used produced transform incoming outgoing temporary)
        (externalTransform s' used produced transform incoming outgoing temporary)

theorem Sheds.schema {t t' : Tree} (h : t.Sheds t') : t'.schema = t.schema := by
  induction h with
  | dropped single input _ ih => rw [ih, input, single]
  | extend _ ih | selectRows _ ih | renameColumns _ ih | orderBy _ ih => simp only [Tree.schema, ih]
  | naturalJoin _ _ ihl ihr | thetaJoin _ _ ihl ihr => simp only [Tree.schema, ihl, ihr]
  | table | project | selectColumns | rawStatement | externalTransform => rfl

/-- A tree in which no extension has a single column has nothing to shed. -/
theorem Sheds.eq {t t' : Tree} (h : t.Sheds t')
    (hmany : ∀ s ∈ t.subtrees, s.kind = .extend → s.schema.length ≠ 1) : t' = t := by
  induction h with
  | table => rfl
  | dropped single _ _ _ =>
    have hroot := (forall_subtrees_iff.mp hmany).1 rfl
    rw [single] at hroot
    exact absurd rfl hroot
  | naturalJoin _ _ ihl ihr | thetaJoin _ _ ihl ihr =>
    have hinputs := (forall_subtrees_iff.mp hmany).2
    rw [ihl (hinputs _ (by simp [children])), ihr (hinputs _ (by simp [children]))]
  | extend _ ih | project _ ih | selectRows _ ih | selectColumns _ ih | renameColumns _ ih
  | orderBy _ ih | rawStatement _ ih | externalTransform _ ih =>
    rw [ih ((forall_subtrees_iff.mp hmany).2 _ (by simp [children]))]

/-- A relation all of whose columns are one has that column only. -/
theorem Valid.schema_eq_single {t : Tree} (h : t.Valid) {c : Text} (hs : ∀ name ∈ t.schema, name = c) :
    t.schema = [c] := by
  have hreplicate := List.eq_replicate_of_mem hs
  have hlength : t.schema.length ≤ 1 := by
    have hnodup := h.named.nodup
    rw [hreplicate, List.nodup_replicate] at hnodup
    exact hnodup
  have hpos := List.length_pos_iff.mpr h.schema_ne_nil
  rw [hreplicate, show t.schema.length = 1 by omega]
  rfl

/-- Narrowing the tree to the wanted columns only sheds, and narrowing once more to the same columns
changes nothing. -/
structure Settles (t : Tree) (wanted : List Text) : Prop where
  sheds : t.Sheds (t.narrowed wanted)
  again : ∀ {wanted'}, WantSame t.schema wanted wanted' →
    (t.narrowed wanted).narrowed wanted' = t.narrowed wanted

variable {source left right : Tree} {wanted wanted' : List Text}

theorem Settles.schema {t : Tree} (h : t.Settles wanted) : (t.narrowed wanted).schema = t.schema :=
  h.sheds.schema

theorem Settles.of_table {t : Table}
    (hkept : keepOne t.columns (wanted.filter t.columns.contains) = t.columns) :
    (table t).Settles wanted := by
  have hsame : ∀ {wanted'}, WantSame t.columns wanted wanted' →
      (table t).narrowed wanted' = table t := by
    intro wanted' h
    have hneeded : keepOne t.columns (wanted'.filter t.columns.contains) = t.columns :=
      (keepOne_congr fun name _ => (h.needed name).symm).trans hkept
    simp only [narrowed, Tree.schema, hneeded]
  have honce := hsame (WantSame.refl t.columns wanted)
  refine ⟨?_, fun h => ?_⟩
  · rw [honce]
    exact .table t
  · rw [honce]
    exact hsame h

section Extend

variable {as : List Assignment} {partitionBy : List Text} {order : List OrderTerm} {needed : List Text}

/-- An extension all of whose assignments matter is narrowed below. -/
theorem narrowed_extend
    (hneeded : needed = wanted.filter (extend source as partitionBy order).schema.contains)
    (hne : as ≠ []) (hkept : (liveAssignments needed as).1 = as) :
    (extend source as partitionBy order).narrowed wanted =
      extend (source.narrowed ((liveAssignments needed as).2 ++ windowColumns partitionBy order)) as
        partitionBy order := by
  simp only [narrowed, ← hneeded, hkept, List.isEmpty_iff, if_neg hne]

theorem Settles.of_extend
    (hneeded : needed = wanted.filter (extend source as partitionBy order).schema.contains)
    (hne : as ≠ []) (hkept : (liveAssignments needed as).1 = as)
    (hs : source.Settles ((liveAssignments needed as).2 ++ windowColumns partitionBy order)) :
    (extend source as partitionBy order).Settles wanted := by
  have honce := narrowed_extend hneeded hne hkept
  have hsheds : (extend source as partitionBy order).Sheds _ := .extend hs.sheds
  refine ⟨honce ▸ hsheds, fun {wanted'} h => ?_⟩
  have hlive := liveAssignments_congr (fun name => hneeded ▸ h.needed name) as
  rw [honce, narrowed_extend (by rw [hsheds.schema]) hne (hlive.1 ▸ hkept)]
  refine congrArg (extend · as partitionBy order) (hs.again ?_)
  exact .append (fun name _ => hlive.2 name) (.refl _ _)

/-- Where the single column of an extension is not wanted, its input stands for it. -/
theorem Settles.of_extend_dropped (h : (extend source as partitionBy order).Valid) {c : Text}
    (hsingle : (extend source as partitionBy order).schema = [c]) (hc : c ∉ wanted)
    (hs : source.schema = [c] → source.Settles []) :
    (extend source as partitionBy order).Settles wanted := by
  have hinput : source.schema = [c] := by
    refine (h.input (by simp [children])).schema_eq_single fun name hn => ?_
    have hmem : name ∈ (extend source as partitionBy order).schema := mem_appendNew.mpr (Or.inl hn)
    rwa [hsingle, List.mem_singleton] at hmem
  -- the one column is not wanted, so nothing is asked of the source
  have hneeded : wanted.filter (extend source as partitionBy order).schema.contains = [] := by
    rw [hsingle, List.filter_eq_nil_iff]
    intro name hn he
    rw [List.contains_eq_mem, decide_eq_true_eq, List.mem_singleton] at he
    exact hc (he ▸ hn)
  have honce : (extend source as partitionBy order).narrowed wanted = source.narrowed [] := by
    simp only [narrowed, hneeded, liveAssignments_nil, List.isEmpty_nil, if_true]
  refine ⟨honce ▸ .dropped hsingle hinput (hs hinput).sheds, fun {wanted'} h => ?_⟩
  rw [honce]
  refine (hs hinput).again fun name hn => ?_
  rw [hinput, List.mem_singleton] at hn
  subst hn
  have hsame := h name (by rw [hsingle]; exact List.mem_singleton_self name)
  exact iff_of_false (by simp) fun hn => hc (hsame.mpr hn)

end Extend

theorem Settles.of_project {groupBy : List Text} {aggregates : List Assignment}
    (hkept : keepAggregates groupBy
      (wanted.filter (project source groupBy aggregates).schema.contains) aggregates = aggregates)
    (hs : source.Settles (groupBy ++ aggregates.flatMap Assignment.reads)) :
    (project source groupBy aggregates).Settles wanted := by
  have honce : (project source groupBy aggregates).narrowed wanted =
      project (source.narrowed (groupBy ++ aggregates.flatMap Assignment.reads)) groupBy aggregates := by
    simp only [narrowed, hkept]
  have hsheds : (project source groupBy aggregates).Sheds _ := .project hs.sheds
  refine ⟨honce ▸ hsheds, fun {wanted'} h => ?_⟩
  rw [keepAggregates_congr h.needed] at hkept
  rw [honce]
  simp only [narrowed, hsheds.schema, hkept, hs.again (WantSame.refl _ _)]

theorem Settles.of_naturalJoin {type : JoinType} {keys needed : List Text}
    (hneeded : needed = wanted.filter (naturalJoin left right type).schema.contains)
    (hkeys : keys = sharedColumns left.schema right.schema)
    (hl : left.Settles (keys ++ needed)) (hr : right.Settles (keys ++ needed)) :
    (naturalJoin left right type).Settles wanted := by
  have honce : (naturalJoin left right type).narrowed wanted =
      naturalJoin (left.narrowed (keys ++ needed)) (right.narrowed (keys ++ needed)) type := by
    simp only [narrowed, hneeded, hkeys]
  have hsheds : (naturalJoin left right type).Sheds _ := .naturalJoin hl.sheds hr.sheds
  refine ⟨honce ▸ hsheds, fun {wanted'} h => ?_⟩
  -- the keys are the same the second time, and what is needed is wanted in both lists
  have hsame : ∀ columns, WantSame columns (keys ++ needed)
      (keys ++ wanted'.filter (naturalJoin left right type).schema.contains) :=
    fun columns => .append (.refl _ _) fun name _ => hneeded ▸ h.needed name
  rw [honce]
  simp only [narrowed, hsheds.schema, hl.schema, hr.schema, ← hkeys, hl.again (hsame _),
    hr.again (hsame _)]

theorem Settles.of_selectRows {predicate : Expr}
    (hs : source.Settles (wanted.filter source.schema.contains ++ predicate.columns)) :
    (selectRows source predicate).Settles wanted := by
  refine ⟨.selectRows hs.sheds, fun h => ?_⟩
  refine congrArg (selectRows · predicate) (hs.again ?_)
  simp only [narrowed, Tree.schema, hs.schema]
  exact .append (fun name _ => h.needed name) (.refl _ _)

theorem Settles.of_orderBy {terms : List OrderTerm} {limit : Option Nat}
    (hs : source.Settles (wanted.filter source.schema.contains ++ terms.map OrderTerm.column)) :
    (orderBy source terms limit).Settles wanted := by
  refine ⟨.orderBy hs.sheds, fun h => ?_⟩
  refine congrArg (orderBy · terms limit) (hs.again ?_)
  simp only [narrowed, Tree.schema, hs.schema]
  exact .append (fun name _ => h.needed name) (.refl _ _)

/-- A choice of columns that are all kept, from an input with others, is narrowed below. -/
theorem narrowed_choice {columns : List Text}
    (hkept : keepOne columns (wanted.filter columns.contains) = columns)
    (hother : (source.narrowed columns).schema ≠ columns) :
    (selectColumns source columns).narrowed wanted =
      selectColumns (source.narrowed columns) columns := by
  simp only [narrowed, Tree.schema, hkept, if_neg hother]

theorem Settles.of_selectColumns {columns : List Text}
    (hkept : keepOne columns (wanted.filter columns.contains) = columns)
    (hother : source.schema ≠ columns) (hs : source.Settles columns) :
    (selectColumns source columns).Settles wanted := by
  have hother' : (source.narrowed columns).schema ≠ columns := hs.schema ▸ hother
  have hagain := hs.again (WantSame.refl _ _)
  refine ⟨narrowed_choice hkept hother' ▸ .selectColumns hs.sheds, fun {wanted'} h => ?_⟩
  have hkept' : keepOne columns (wanted'.filter columns.contains) = columns :=
    (keepOne_congr fun name _ => (WantSame.needed h name).symm).trans hkept
  rw [narrowed_choice hkept hother', narrowed_choice hkept' (by rwa [hagain]), hagain]

section ThetaJoin

variable {leftColumns rightColumns leftColumns' rightColumns' collisions : List Text}
  {suffixes : Suffixes} {outputs needed needed' reads : List Text}

/-- A side is asked for a column that it has exactly if the column is used under its joined name. -/
theorem mem_sideInputs_usedColumns {fromLeft : Bool} {name : Text} :
    name ∈ sideInputs fromLeft (usedColumns leftColumns rightColumns collisions suffixes outputs) ↔
      name ∈ (if fromLeft then leftColumns else rightColumns) ∧
        joinedName collisions suffixes fromLeft name ∈ outputs := by
  simp only [sideInputs, usedColumns, List.mem_map, List.mem_filter, mem_joinColumns,
    List.contains_eq_mem, decide_eq_true_eq, beq_iff_eq]
  constructor
  · rintro ⟨c, ⟨⟨⟨hin, hout⟩, hused⟩, rfl⟩, rfl⟩
    exact ⟨hin, hout ▸ hused⟩
  · rintro ⟨hin, hused⟩
    exact ⟨⟨fromLeft, name, joinedName collisions suffixes fromLeft name⟩,
      ⟨⟨⟨hin, rfl⟩, hused⟩, rfl⟩, rfl⟩

/-- A side of a join is asked for the same where the join is, among the columns that the side has left. -/
theorem wantSame_sideInputs (fromLeft : Bool)
    (h : ∀ name ∈ (if fromLeft then leftColumns' else rightColumns'),
      name ∈ (if fromLeft then leftColumns else rightColumns))
    (hn : ∀ name, name ∈ needed ↔ name ∈ needed') :
    WantSame (if fromLeft then leftColumns' else rightColumns')
      (sideInputs fromLeft
        (usedColumns leftColumns rightColumns collisions suffixes (needed ++ reads)))
      (sideInputs fromLeft
        (usedColumns leftColumns' rightColumns' collisions suffixes (needed' ++ reads))) := by
  intro name hname
  rw [mem_sideInputs_usedColumns, mem_sideInputs_usedColumns, List.mem_append, List.mem_append, hn]
  exact and_congr_left' (iff_of_true (h name hname) hname)

theorem Settles.of_thetaJoin {predicate : Expr} {type : JoinType} {used : List JoinColumn}
    (hneeded : needed =
      wanted.filter (thetaJoin left right predicate type suffixes collisions).schema.contains)
    (hused : used = usedColumns left.schema right.schema collisions suffixes
      (needed ++ predicate.columns))
    (hl : left.Settles (sideInputs true used)) (hr : right.Settles (sideInputs false used)) :
    (thetaJoin left right predicate type suffixes collisions).Settles wanted := by
  have honce : (thetaJoin left right predicate type suffixes collisions).narrowed wanted =
      thetaJoin (left.narrowed (sideInputs true used)) (right.narrowed (sideInputs false used))
        predicate type suffixes collisions := by
    simp only [narrowed, hneeded, hused]
  have hsheds : (thetaJoin left right predicate type suffixes collisions).Sheds _ :=
    .thetaJoin hl.sheds hr.sheds
  refine ⟨honce ▸ hsheds, fun {wanted'} h => ?_⟩
  have hneeded' := h.needed
  rw [← hneeded] at hneeded'
  subst hused
  rw [honce]
  simp only [narrowed, hsheds.schema, hl.schema, hr.schema]
  rw [hl.again (wantSame_sideInputs true (fun _ hn => hn) hneeded'),
    hr.again (wantSame_sideInputs false (fun _ hn => hn) hneeded')]

/-- Each side of a join has a column, so the join has two. -/
theorem Valid.thetaJoin_not_single {predicate : Expr} {type : JoinType} {c : Text}
    (h : (thetaJoin left right predicate type suffixes collisions).Valid) :
    (thetaJoin left right predicate type suffixes collisions).schema ≠ [c] := by
  intro hsingle
  have hleft := List.length_pos_iff.mpr (h.input (c := left) (by simp [children])).schema_ne_nil
  have hright := List.length_pos_iff.mpr (h.input (c := right) (by simp [children])).schema_ne_nil
  have hlength := congrArg List.length hsingle
  simp only [Tree.schema, joinColumns, List.length_map, List.length_append, List.length_singleton]
    at hlength
  omega

end ThetaJoin

section Rename

variable {mapping : List Rename} {needed needed' : List Text}

/-- The input is asked for an old name exactly if its column is needed under the new name. -/
theorem mem_map_oldName (h : (renameColumns source mapping).Valid)
    (hneeded : needed = wanted.filter (renameColumns source mapping).schema.contains) {name : Text}
    (hn : name ∈ source.schema) :
    name ∈ needed.map (oldName mapping) ↔ renamed mapping name ∈ needed := by
  have hc : RenameChecks source.schema mapping := h.checked
  have hold : ∀ old ∈ source.schema, oldName mapping (renamed mapping old) = old := fun old ho =>
    oldName_renamed hc.known hc.olds.nodup hc.news.nodup hc.named.nodup ho
  constructor
  · intro hm
    obtain ⟨new, hnew, rfl⟩ := List.mem_map.mp hm
    obtain ⟨old, ho, rfl⟩ := List.mem_map.mp (mem_needed.mp (hneeded ▸ hnew)).2
    rwa [hold old ho]
  · exact fun hm => List.mem_map.mpr ⟨_, hm, hold name hn⟩

/-- A renaming of columns that are all there is narrowed below. -/
theorem narrowed_renameColumns (hne : mapping ≠ [])
    (hneeded : needed = wanted.filter (renameColumns source mapping).schema.contains)
    (hknown : ∀ name ∈ mapping.map Rename.old,
      name ∈ (source.narrowed (needed.map (oldName mapping))).schema) :
    (renameColumns source mapping).narrowed wanted =
      renameColumns (source.narrowed (needed.map (oldName mapping))) mapping := by
  have hfilter : (mapping.filter fun r =>
      (source.narrowed (needed.map (oldName mapping))).schema.contains r.old) = mapping :=
    List.filter_eq_self.mpr fun r hr => by
      simpa using hknown r.old (List.mem_map.mpr ⟨r, hr, rfl⟩)
  simp only [narrowed, ← hneeded, hfilter, List.isEmpty_iff, if_neg hne]

theorem Settles.of_renameColumns (hne : mapping ≠ [])
    (hneeded : needed = wanted.filter (renameColumns source mapping).schema.contains)
    (hknown : ∀ name ∈ mapping.map Rename.old, name ∈ source.schema)
    (hs : source.Settles (needed.map (oldName mapping))) :
    (renameColumns source mapping).Settles wanted := by
  have honce := narrowed_renameColumns hne hneeded (by rwa [hs.schema])
  have hsheds : (renameColumns source mapping).Sheds _ := .renameColumns hs.sheds
  refine ⟨honce ▸ hsheds, fun {wanted'} h => ?_⟩
  -- wanting the same new names is wanting the same old ones
  have hagain : (source.narrowed (needed.map (oldName mapping))).narrowed
      ((wanted'.filter (renameColumns source mapping).schema.contains).map (oldName mapping)) =
        source.narrowed (needed.map (oldName mapping)) := by
    refine hs.again fun name _ => ?_
    simp only [List.mem_map, hneeded, h.needed]
  rw [honce, narrowed_renameColumns hne rfl, hsheds.schema, hagain]
  rw [hsheds.schema, hagain, hs.schema]
  exact hknown

end Rename

theorem Settles.of_rawStatement {used produced : List Text} {template : Expr}
    (hs : source.Settles (used ++ template.columns)) :
    (rawStatement source used produced template).Settles wanted :=
  ⟨.rawStatement hs.sheds,
    fun _ => congrArg (rawStatement · used produced template) (hs.again (.refl _ _))⟩

theorem Settles.of_externalTransform {used produced : List Text} {transform : Transform}
    {incoming outgoing : Text} {temporary : Bool} (hs : source.Settles used) :
    (externalTransform source used produced transform incoming outgoing temporary).Settles wanted :=
  ⟨.externalTransform hs.sheds, fun _ =>
    congrArg (externalTransform · used produced transform incoming outgoing temporary)
      (hs.again (.refl _ _))⟩

/-! ## From the first pass to the second -/

/-- The second pass asks for the same of the columns as the first one did, or there is only one. -/
def AsksAgain (columns wanted wanted' : List Text) : Prop :=
  WantSame columns wanted wanted' ∨ ∃ c, columns = [c]

variable {t t' : Tree} {columns : List Text}

theorem AsksAgain.needed (h : AsksAgain columns wanted wanted')
    (hin : ∀ name ∈ columns, name ∈ t.schema) :
    AsksAgain columns (wanted.filter t.schema.contains) wanted' := by
  refine h.imp_left fun hsame name hn => ?_
  rw [mem_needed, ← hsame name hn]
  exact and_iff_left (hin name hn)

/-- Where both passes ask for the same, they need the same of a node. -/
theorem Narrows.needed_again (h : t.Narrows wanted t') (hs : WantSame t'.schema wanted wanted')
    (name : Text) :
    name ∈ wanted.filter t.schema.contains ↔ name ∈ wanted'.filter t'.schema.contains := by
  rw [mem_needed, mem_needed]
  constructor
  · intro hn
    have hmem := h.keeps name hn.1 hn.2
    exact ⟨(hs name hmem).mp hn.1, hmem⟩
  · exact fun hn => ⟨(hs name hn.2).mpr hn.1, h.within name hn.2⟩

/-- Where something was needed and one column is left, it is the one that was needed. So if the second
pass asks for something else, it does not ask for this column. -/
theorem Narrows.single_not_wanted (h : t.Narrows wanted t') {c : Text}
    (hne : wanted.filter t.schema.contains ≠ []) (hsingle : t'.schema = [c])
    (hother : ¬WantSame t'.schema wanted wanted') : c ∉ wanted' := by
  have hwanted : c ∈ wanted := by
    obtain ⟨name, hname⟩ := List.exists_mem_of_ne_nil _ hne
    rw [mem_needed] at hname
    have hmem := h.keeps name hname.1 hname.2
    rw [hsingle, List.mem_singleton] at hmem
    exact hmem ▸ hname.1
  refine fun hc => hother fun name hname => ?_
  rw [hsingle, List.mem_singleton] at hname
  exact hname ▸ iff_of_true hwanted hc

/-- The columns that a first pass keeps are kept again. -/
theorem keepOne_again (hne : columns ≠ [])
    (h : AsksAgain (keepOne columns (wanted.filter columns.contains)) wanted wanted') :
    (∀ name ∈ keepOne columns (wanted.filter columns.contains), name ∈ wanted') ∨
      ∃ c, keepOne columns (wanted.filter columns.contains) = [c] := by
  rcases h with hsame | hsingle
  · refine (keepOne_needed_or_single columns (wanted.filter columns.contains) hne).imp_left ?_
    exact fun hall name hn => (hsame name hn).mp (mem_needed.mp (hall name hn)).1
  · exact Or.inr hsingle

/-- What is left of the tree when it is narrowed settles, if the second pass asks for the same. -/
def Settling (t : Tree) : Prop :=
  ∀ {wanted wanted'}, AsksAgain (t.narrowed wanted).schema wanted wanted' →
    (t.narrowed wanted).Settles wanted'

theorem Settling.of_table {t : Table} (h : (table t).Valid) : (table t).Settling := by
  intro wanted wanted' hask
  refine Settles.of_table (keepOne_eq_self ?_)
  refine (keepOne_again h.checked.nonempty hask).imp_left fun hall name hn => ?_
  exact mem_needed.mpr ⟨hall name hn, hn⟩

section Extend

variable {as : List Assignment} {partitionBy : List Text} {order : List OrderTerm} {needed : List Text}

theorem Settling.of_extend (h : (extend source as partitionBy order).Valid) (hs : source.Settling) :
    (extend source as partitionBy order).Settling := by
  intro wanted wanted' hask
  have hn := narrows_narrowed h wanted
  simp only [narrowed] at hn hask ⊢
  generalize hneeded : wanted.filter (extend source as partitionBy order).schema.contains = needed
    at hn hask ⊢
  -- either the node is gone after the first list, and its source has to settle
  split at hask
  · rename_i hnil
    rw [if_pos hnil] at hn ⊢
    rw [live_eq_of_kept_nil (List.isEmpty_iff.mp hnil)] at hn hask ⊢
    exact hs (hneeded ▸ hask.needed hn.within)
  · rename_i hne
    rw [if_neg hne] at hn ⊢
    rw [List.isEmpty_iff] at hne
    by_cases hsame : WantSame (extend (source.narrowed ((liveAssignments needed as).2 ++
        windowColumns partitionBy order)) (liveAssignments needed as).1 partitionBy order).schema
        wanted wanted'
    · have hlive := liveAssignments_congr (fun name => hneeded ▸ hn.needed_again hsame name)
        (liveAssignments needed as).1
      rw [liveAssignments_kept] at hlive
      refine Settles.of_extend rfl hne hlive.1.symm (hs (Or.inl ?_))
      exact .append (fun name _ => hlive.2 name) (.refl _ _)
    · -- a single column the lists disagree on: the first list does not want it
      obtain ⟨c, hsingle⟩ := hask.resolve_left hsame
      have hnonempty : needed ≠ [] := fun hnil => hne (by rw [hnil, liveAssignments_nil])
      have hgone := hn.single_not_wanted (hneeded ▸ hnonempty) hsingle hsame
      exact Settles.of_extend_dropped hn.valid hsingle hgone fun hinput => hs (Or.inr ⟨c, hinput⟩)

end Extend

theorem Settling.of_project {groupBy : List Text} {aggregates : List Assignment}
    (h : (project source groupBy aggregates).Valid) (hs : source.Settling) :
    (project source groupBy aggregates).Settling := by
  intro wanted wanted' hask
  have hn := narrows_narrowed h wanted
  simp only [narrowed] at hn hask ⊢
  generalize hneeded : wanted.filter (project source groupBy aggregates).schema.contains = needed
    at hn hask ⊢
  refine Settles.of_project (keepAggregates_eq_self ?_) (hs (Or.inl (.refl _ _)))
  rcases keepAggregates_needed_or_single groupBy needed aggregates with hall | hone
  · rcases hask with hsame | ⟨c, hsingle⟩
    · refine Or.inl fun a ha => ?_
      exact (hn.needed_again hsame a.target).mp (hneeded ▸ hall a ha)
    · -- the one column is a group column, or it is the one aggregate
      cases groupBy with
      | nil =>
        obtain ⟨a, ha, -⟩ := List.map_eq_singleton_iff.mp hsingle
        exact Or.inr ⟨rfl, a, ha⟩
      | cons name rest =>
        have hnil := (List.append_eq_nil_iff.mp (List.cons.inj hsingle).2).2
        rw [List.map_eq_nil_iff] at hnil
        exact Or.inl (by simp [hnil])
  · exact Or.inr hone

/-- A second pass asks the same of both sides of a natural join: the columns they share are what they
shared before. -/
theorem asksAgain_naturalJoin {left' right' : Tree} {type : JoinType} {keys needed : List Text}
    (hneeded : needed = wanted.filter (naturalJoin left right type).schema.contains)
    (hkeys : keys = sharedColumns left.schema right.schema)
    (hl : left.Narrows (keys ++ needed) left') (hr : right.Narrows (keys ++ needed) right')
    (hn : (naturalJoin left right type).Narrows wanted (naturalJoin left' right' type))
    (hask : AsksAgain (naturalJoin left' right' type).schema wanted wanted') (side : Tree)
    (hside : side ∈ [left', right']) :
    AsksAgain side.schema (keys ++ needed)
      (sharedColumns left'.schema right'.schema ++
        wanted'.filter (naturalJoin left' right' type).schema.contains) := by
  rcases hask with hsame | ⟨c, hsingle⟩
  · refine Or.inl (.append (fun name _ => ?_) fun name _ => ?_)
    · rw [hkeys]
      exact (Narrows.mem_shared hkeys hl hr).symm
    · rw [hneeded]
      exact hn.needed_again hsame name
  · -- a side of a join with a single column has just that column
    have hvalid : side.Valid := hn.valid.input hside
    refine Or.inr ⟨c, hvalid.schema_eq_single fun name hname => ?_⟩
    have hmem : name ∈ (naturalJoin left' right' type).schema := by
      refine mem_naturalColumns.mpr ?_
      rcases List.mem_pair.mp hside with rfl | rfl
      · exact Or.inl hname
      · exact Or.inr hname
    rwa [hsingle, List.mem_singleton] at hmem

theorem Settling.of_naturalJoin {type : JoinType} (h : (naturalJoin left right type).Valid)
    (hl : left.Settling) (hr : right.Settling) : (naturalJoin left right type).Settling := by
  intro wanted wanted' hask
  have hsides := asksAgain_naturalJoin rfl rfl (narrows_narrowed (h.input (by simp [children])) _)
    (narrows_narrowed (h.input (by simp [children])) _) (narrows_narrowed h wanted) hask
  exact Settles.of_naturalJoin rfl rfl (hl (hsides _ (by simp))) (hr (hsides _ (by simp)))

theorem Settling.of_thetaJoin {predicate : Expr} {type : JoinType} {suffixes : Suffixes}
    {collisions : List Text} (h : (thetaJoin left right predicate type suffixes collisions).Valid)
    (hl : left.Settling) (hr : right.Settling) :
    (thetaJoin left right predicate type suffixes collisions).Settling := by
  intro wanted wanted' hask
  have hn := narrows_narrowed h wanted
  have hnl := narrows_narrowed (h.input (c := left) (by simp [children]))
  have hnr := narrows_narrowed (h.input (c := right) (by simp [children]))
  rcases hask with hsame | ⟨c, hsingle⟩
  · have hneeded := hn.needed_again hsame
    exact Settles.of_thetaJoin rfl rfl (hl (Or.inl (wantSame_sideInputs true (hnl _).within hneeded)))
      (hr (Or.inl (wantSame_sideInputs false (hnr _).within hneeded)))
  · exact absurd hsingle hn.valid.thetaJoin_not_single

theorem Settling.of_selectRows {predicate : Expr} (h : (selectRows source predicate).Valid)
    (hs : source.Settling) : (selectRows source predicate).Settling := by
  intro wanted wanted' hask
  refine Settles.of_selectRows (hs (hask.imp_left fun hsame => ?_))
  exact .append (fun name _ => (narrows_narrowed h wanted).needed_again hsame name) (.refl _ _)

theorem Settling.of_orderBy {terms : List OrderTerm} {limit : Option Nat}
    (h : (orderBy source terms limit).Valid) (hs : source.Settling) :
    (orderBy source terms limit).Settling := by
  intro wanted wanted' hask
  refine Settles.of_orderBy (hs (hask.imp_left fun hsame => ?_))
  exact .append (fun name _ => (narrows_narrowed h wanted).needed_again hsame name) (.refl _ _)

theorem Settling.of_selectColumns {columns : List Text} (h : (selectColumns source columns).Valid)
    (hs : source.Settling) : (selectColumns source columns).Settling := by
  intro wanted wanted' hask
  have hne : columns ≠ [] := h.checked.nonempty
  simp only [narrowed] at hask ⊢
  split at hask
  · -- the choice has disappeared, and its input has just the columns that were chosen
    rename_i hsame
    rw [if_pos hsame]
    rw [hsame] at hask
    refine hs ((keepOne_again hne hask).imp (fun hall name hn => ?_) fun hsingle => ?_)
    · rw [hsame] at hn
      exact iff_of_true hn (hall name hn)
    · rwa [hsame]
  · rename_i hother
    rw [if_neg hother]
    refine Settles.of_selectColumns (keepOne_eq_self ?_) hother (hs (Or.inl (.refl _ _)))
    refine (keepOne_again hne hask).imp_left fun hall name hn => ?_
    exact mem_needed.mpr ⟨hall name hn, hn⟩

section Rename

variable {source' : Tree} {mapping mapping' : List Rename} {needed : List Text}

/-- A renaming that has disappeared left the names of its input as they are. -/
theorem asksAgain_rename_dropped (h : (renameColumns source mapping).Valid)
    (hneeded : needed = wanted.filter (renameColumns source mapping).schema.contains)
    (hs : source.Narrows (needed.map (oldName mapping)) source')
    (hnil : (mapping.filter fun r => source'.schema.contains r.old) = [])
    (hask : AsksAgain source'.schema wanted wanted') :
    AsksAgain source'.schema (needed.map (oldName mapping)) wanted' := by
  have hn := Narrows.of_renameColumns_dropped h hneeded hs hnil
  have hsame : ∀ name ∈ source'.schema, renamed mapping name = name := by
    intro name hname
    rw [← renamed_filter hname, hnil]
    rfl
  refine (hask.needed hn.within).imp_left fun hagain name hname => ?_
  rw [mem_map_oldName h hneeded (hs.within name hname), hsame name hname, hneeded]
  exact hagain name hname

/-- A second pass asks the input of a renaming for the same, in terms of the old names. -/
theorem asksAgain_rename (h : (renameColumns source mapping).Valid)
    (hneeded : needed = wanted.filter (renameColumns source mapping).schema.contains)
    (hs : source.Narrows (needed.map (oldName mapping)) source')
    (hmapping : mapping' = mapping.filter fun r => source'.schema.contains r.old)
    (hask : AsksAgain (renameColumns source' mapping').schema wanted wanted') :
    AsksAgain source'.schema (needed.map (oldName mapping))
      ((wanted'.filter (renameColumns source' mapping').schema.contains).map (oldName mapping')) := by
  have hn : (renameColumns source mapping).Narrows wanted (renameColumns source' mapping') :=
    hmapping ▸ Narrows.of_renameColumns h hneeded hs
  rcases hask with hsame | ⟨c, hsingle⟩
  · refine Or.inl fun name hname => ?_
    rw [mem_map_oldName h hneeded (hs.within name hname), mem_map_oldName hn.valid rfl hname, hmapping,
      renamed_filter hname, ← hmapping, ← hn.needed_again hsame, hneeded]
  · obtain ⟨old, hold, -⟩ := List.map_eq_singleton_iff.mp hsingle
    exact Or.inr ⟨old, hold⟩

theorem Settling.of_renameColumns (h : (renameColumns source mapping).Valid) (hs : source.Settling) :
    (renameColumns source mapping).Settling := by
  intro wanted wanted' hask
  have hns := narrows_narrowed (h.input (c := source) (by simp [children]))
    ((wanted.filter (renameColumns source mapping).schema.contains).map (oldName mapping))
  have hvalid := (narrows_narrowed h wanted).valid
  simp only [narrowed] at hvalid hask ⊢
  split at hask
  · rename_i hnil
    rw [if_pos hnil]
    exact hs (asksAgain_rename_dropped h rfl hns (List.isEmpty_iff.mp hnil) hask)
  · rename_i hne
    rw [if_neg hne] at hvalid ⊢
    rw [List.isEmpty_iff] at hne
    have hc := hvalid.checked
    exact Settles.of_renameColumns hne rfl hc.known (hs (asksAgain_rename h rfl hns rfl hask))

end Rename

theorem Settling.of_rawStatement {used produced : List Text} {template : Expr} (hs : source.Settling) :
    (rawStatement source used produced template).Settling := by
  intro wanted wanted' _
  exact Settles.of_rawStatement (hs (Or.inl (.refl _ _)))

theorem Settling.of_externalTransform {used produced : List Text} {transform : Transform}
    {incoming outgoing : Text} {temporary : Bool} (hs : source.Settling) :
    (externalTransform source used produced transform incoming outgoing temporary).Settling := by
  intro wanted wanted' _
  exact Settles.of_externalTransform (hs (Or.inl (.refl _ _)))

/-- **The invariant of narrowing again**, for every valid tree. -/
theorem Valid.settling (h : t.Valid) : t.Settling := by
  induction t with
  | table t => exact Settling.of_table h
  | extend source _ _ _ ih => exact Settling.of_extend h (ih (h.input (by simp [children])))
  | project source _ _ ih => exact Settling.of_project h (ih (h.input (by simp [children])))
  | naturalJoin left right _ ihl ihr =>
    exact Settling.of_naturalJoin h (ihl (h.input (by simp [children])))
      (ihr (h.input (by simp [children])))
  | thetaJoin left right _ _ _ _ ihl ihr =>
    exact Settling.of_thetaJoin h (ihl (h.input (by simp [children])))
      (ihr (h.input (by simp [children])))
  | selectRows source _ ih => exact Settling.of_selectRows h (ih (h.input (by simp [children])))
  | selectColumns source _ ih => exact Settling.of_selectColumns h (ih (h.input (by simp [children])))
  | renameColumns source _ ih => exact Settling.of_renameColumns h (ih (h.input (by simp [children])))
  | orderBy source _ _ ih => exact Settling.of_orderBy h (ih (h.input (by simp [children])))
  | rawStatement source _ _ _ ih => exact Settling.of_rawStatement (ih (h.input (by simp [children])))
  | externalTransform source _ _ _ _ _ _ ih =>
    exact Settling.of_externalTransform (ih (h.input (by simp [children])))

/-! ## The root -/

variable {T : Tree} {output : Option (List Text)}

/-- Narrowing at the root is narrowing a choice of the output columns. -/
theorem narrowed_selectColumns_self (columns : List Text) :
    (selectColumns t columns).narrowed columns = (t.narrowed columns).projected columns := by
  have hneeded : keepOne columns (columns.filter columns.contains) = columns :=
    keepOne_eq_self (Or.inl fun name hn => mem_needed.mpr ⟨hn, hn⟩)
  simp only [narrowed, Tree.schema, hneeded, projected]

theorem settles_of_narrow (h : t.Valid) (hT : t.narrow output = .ok T) : T.Settles T.schema := by
  obtain ⟨ha, rfl⟩ := (narrow_ok_iff h).mp hT
  have hchoice : (selectColumns t (output.getD t.schema)).Valid :=
    Checked.valid₁ (ha.columnChecks h) rfl h
  have hsettles := hchoice.settling (Or.inl (.refl _ (output.getD t.schema)))
  rw [narrowed_selectColumns_self] at hsettles
  rw [schema_projected]
  exact hsettles

/-- A tree that settles on its own columns can be narrowed, and they stay. -/
theorem Settles.narrow (hv : T.Valid) (hs : T.Settles T.schema) :
    T.narrow none = .ok (T.narrowed T.schema) := by
  have haccepts : T.Accepts none := nofun
  rw [narrow_ok_iff hv]
  exact ⟨haccepts, (if_pos hs.schema).symm⟩

/--
**What narrowing does the second time and the third.**

A narrowed tree can be narrowed again. The second pass only drops extensions of a single column, so that
all other operators stay as they are and no column is lost, and the third pass changes nothing. Where no
extension of the narrowed tree has a single column, the second pass changes nothing either.
-/
theorem narrow_settles_twice (h : t.Built) (hT : t.narrow output = .ok T) :
    ∃ T₂, T.narrow none = .ok T₂ ∧ T.Sheds T₂ ∧ T₂.schema = T.schema ∧ T₂.narrow none = .ok T₂ ∧
      ((∀ s ∈ T.subtrees, s.kind = .extend → s.schema.length ≠ 1) → T₂ = T) := by
  have hv := narrow_valid h.valid hT
  have hs := settles_of_narrow h.valid hT
  have hsecond := hs.narrow hv
  refine ⟨_, hsecond, hs.sheds, hs.schema, ?_, hs.sheds.eq⟩
  rw [narrow_ok_iff (narrow_valid hv hsecond)]
  refine ⟨nofun, ?_⟩
  rw [Option.getD_none, hs.schema, hs.again (.refl _ _)]
  exact (if_pos hs.schema).symm

/-- A copy `z` of the column `x` of `t(x, y)`. -/
def copiedColumn : Tree := .extend (.table ⟨[116], [[120], [121]], none⟩) [⟨[122], .var [120]⟩] [] []

theorem built_copiedColumn : copiedColumn.Built := by
  have ht : Pipeline.table [116] [[120], [121]] none =
      .ok (.table ⟨[116], [[120], [121]], none⟩) := rfl
  have he : Pipeline.extend (.table ⟨[116], [[120], [121]], none⟩) [⟨[122], .var [120]⟩] [] [] =
      .ok copiedColumn := by cbv
  exact .extend (.table ht) he

/-- The copy before its original: the table loses `y`, and a second pass changes nothing. -/
theorem narrow_settles_twice_copiedColumn :
    copiedColumn.Built ∧
      ∃ T, copiedColumn.narrow (some [[122], [120]]) = .ok T ∧ T.narrow none = .ok T := by
  have hT : copiedColumn.narrow (some [[122], [120]]) =
      .ok (.selectColumns (.extend (.table ⟨[116], [[120]], none⟩) [⟨[122], .var [120]⟩] [] [])
        [[122], [120]]) := by cbv
  obtain ⟨T₂, hsecond, -, -, -, hsame⟩ := narrow_settles_twice built_copiedColumn hT
  rw [hsame (by decide)] at hsecond
  exact ⟨built_copiedColumn, _, hT, hsecond⟩

/-- The number of rows of `t(x, y)`, counted after a constant was put in place of `x` and chosen. -/
def countedConstant : Tree :=
  .project (.selectColumns (.extend (.table ⟨[116], [[120], [121]], none⟩)
    [⟨[120], .lit (.int 5)⟩] [] []) [[120]]) [] [⟨[110], .call "count" [.lit (.int 1)]⟩]

theorem built_countedConstant : countedConstant.Built := by
  have ht : Pipeline.table [116] [[120], [121]] none =
      .ok (.table ⟨[116], [[120], [121]], none⟩) := rfl
  have he : Pipeline.extend (.table ⟨[116], [[120], [121]], none⟩) [⟨[120], .lit (.int 5)⟩] [] [] =
      .ok (.extend (.table ⟨[116], [[120], [121]], none⟩) [⟨[120], .lit (.int 5)⟩] [] []) := by cbv
  have hs : Pipeline.selectColumns (.extend (.table ⟨[116], [[120], [121]], none⟩)
      [⟨[120], .lit (.int 5)⟩] [] []) [[120]] =
        .ok (.selectColumns (.extend (.table ⟨[116], [[120], [121]], none⟩)
          [⟨[120], .lit (.int 5)⟩] [] []) [[120]]) := rfl
  have hp : Pipeline.project (.selectColumns (.extend (.table ⟨[116], [[120], [121]], none⟩)
      [⟨[120], .lit (.int 5)⟩] [] []) [[120]]) [] [⟨[110], .call "count" [.lit (.int 1)]⟩] =
        .ok countedConstant := by cbv
  exact .project (.selectColumns (.extend (.table ht) he) hs) hp

/-- The choice of `x` disappears first, and then nobody asks for the constant. -/
theorem narrow_not_idempotent :
    countedConstant.Built ∧ ∃ T T₂, countedConstant.narrow none = .ok T ∧ T.narrow none = .ok T₂ ∧
      T₂.format ≠ T.format := by
  have hT : countedConstant.narrow none =
      .ok (.project (.extend (.table ⟨[116], [[120]], none⟩) [⟨[120], .lit (.int 5)⟩] [] []) []
        [⟨[110], .call "count" [.lit (.int 1)]⟩]) := by cbv
  have hT₂ : Tree.narrow (.project (.extend (.table ⟨[116], [[120]], none⟩)
      [⟨[120], .lit (.int 5)⟩] [] []) [] [⟨[110], .call "count" [.lit (.int 1)]⟩]) none =
        .ok (.project (.table ⟨[116], [[120]], none⟩) []
          [⟨[110], .call "count" [.lit (.int 1)]⟩]) := by cbv
  exact ⟨built_countedConstant, _, _, hT, hT₂, by decide +kernel⟩

end Tree

end SqlPipeline
