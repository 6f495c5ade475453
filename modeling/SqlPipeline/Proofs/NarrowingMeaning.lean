import SqlPipeline.Proofs.Agreement
import SqlPipeline.Proofs.Construction
import SqlPipeline.Sql.Generate

/-!
# Narrowing keeps the rows

A narrowed tree agrees with the tree on the columns that are wanted of it. Nothing
is said about its other columns, and nothing could be: a rebuilt extension may leave
out the assignment to a column that it still carries, and then the column has
another value than in the tree.

Each operator asks its input for all that it reads and all that is wanted of it, so
the inputs agree on everything that counts. At the root the wanted columns are all
there are, so agreement becomes equality, and with a limit the tree that statements
are made from has just the first rows of the tree.
-/

namespace SqlPipeline.Tree

universe u

variable {V : Type u} [DecidableEq V] {M : Meaning V} {db : Database V}
  {t source left right source' left' right' : Tree} {wanted needed : List Text}

/-! ## One operator after the other -/

section Extend

variable {as : List Assignment} {partitionBy : List Text} {order : List OrderTerm}

theorem agree_extend_dropped (hnil : (liveAssignments needed as).1 = [])
    (hs : Agree needed (source.rows M db) (source'.rows M db)) :
    Agree needed ((extend source as partitionBy order).rows M db) (source'.rows M db) := by
  refine hs.foldl_assign_left M fun name ht hn => ?_
  have hkept := mem_kept_of_mem_targets hn ht
  rw [hnil] at hkept
  exact absurd hkept (by simp)

theorem agree_extend (h : (extend source as partitionBy order).Valid)
    (hs : Agree ((liveAssignments needed as).2 ++ windowColumns partitionBy order)
      (source.rows M db) (source'.rows M db)) :
    Agree needed ((extend source as partitionBy order).rows M db)
      ((extend source' (liveAssignments needed as).1 partitionBy order).rows M db) :=
  hs.liveAssignments M h.checked.unassigned

end Extend

theorem agree_project {groupBy : List Text} {aggregates : List Assignment}
    (h : (project source groupBy aggregates).Valid)
    (hs : Agree (groupBy ++ (keepAggregates groupBy needed aggregates).flatMap Assignment.reads)
      (source.rows M db) (source'.rows M db)) :
    Agree needed ((project source groupBy aggregates).rows M db)
      ((project source' groupBy (keepAggregates groupBy needed aggregates)).rows M db) := by
  have hnd := (List.nodup_append.mp h.checked.named.nodup).2.1
  have hgroups := hs.groups fun name hn => List.mem_append_left _ hn
  exact List.rel_map (fun rows rows' hrows => hrows.groupRow M hnd) hgroups

theorem agree_naturalJoin {type : JoinType} {keys : List Text}
    (hkeys : keys = sharedColumns left.schema right.schema)
    (hl : left.Narrows (keys ++ needed) left') (hr : right.Narrows (keys ++ needed) right')
    (hal : Agree (keys ++ needed) (left.rows M db) (left'.rows M db))
    (har : Agree (keys ++ needed) (right.rows M db) (right'.rows M db)) :
    Agree needed ((naturalJoin left right type).rows M db)
      ((naturalJoin left' right' type).rows M db) := by
  have hin : ∀ name ∈ needed, name ∈ keys ++ needed := fun _ hn => List.mem_append_right _ hn
  have hkeep : ∀ name ∈ sharedColumns left.schema right.schema, name ∈ keys ++ needed :=
    fun _ hn => List.mem_append_left _ (hkeys ▸ hn)
  -- the keys are kept on both sides, so the same pairs of rows meet
  have hpairs := joinPairs_rel type hal har fun l l' r r' hsl hsr =>
    M.keysAgree_congr (fun _ => Narrows.mem_shared hkeys hl hr) (hsl.mono hkeep) (hsr.mono hkeep)
  refine List.rel_map ?_ hpairs
  intro p p' hp
  obtain ⟨hpl, hpr⟩ := hp
  refine sameOn_naturalRow hin ?_ ?_ hpl hpr
  · exact fun name hn => ⟨hl.within name, hl.keeps name (hin name hn)⟩
  · exact fun name hn => ⟨hr.within name, hr.keeps name (hin name hn)⟩

theorem agree_thetaJoin {predicate : Expr} {type : JoinType} {suffixes : Suffixes}
    {collisions : List Text}
    (h : (thetaJoin left right predicate type suffixes collisions).Valid) {used : List JoinColumn}
    (hused : used = usedColumns left.schema right.schema collisions suffixes
      (needed ++ predicate.columns))
    (hl : left.Narrows (sideInputs true used) left') (hr : right.Narrows (sideInputs false used) right')
    (hal : Agree (sideInputs true used) (left.rows M db) (left'.rows M db))
    (har : Agree (sideInputs false used) (right.rows M db) (right'.rows M db)) :
    Agree needed ((thetaJoin left right predicate type suffixes collisions).rows M db)
      ((thetaJoin left' right' predicate type suffixes collisions).rows M db) := by
  have hnd := h.checked.named.nodup
  -- fewer columns still have the suffixes of before, since the collisions are kept as they were
  have hnd' := nodup_join_outputs hnd hl.within hr.within hl.valid.named.nodup hr.valid.named.nodup
  have hrow : ∀ p p' : Option (Row V) × Option (Row V),
      Option.Rel (SameOn (sideInputs true used)) p.1 p'.1 →
      Option.Rel (SameOn (sideInputs false used)) p.2 p'.2 →
      SameOn (needed ++ predicate.columns)
        (M.thetaRow (joinColumns left.schema right.schema collisions suffixes) p)
        (M.thetaRow (joinColumns left'.schema right'.schema collisions suffixes) p') := by
    intro p p' hpl hpr
    refine sameOn_thetaRow hused hnd hnd' (fun c hc => joinColumns_mono hl.within hr.within hc) ?_
      hpl hpr
    subst hused
    exact fun c hc ho => mem_joinColumns_of_used hl.keeps hr.keeps hc ho
  have hpairs := joinPairs_rel type hal har fun l l' r r' hsl hsr =>
    M.passes_congr ((hrow (some l, some r) (some l', some r') (.some hsl) (.some hsr)).mono
      fun _ hn => List.mem_append_right _ hn)
  refine List.rel_map ?_ hpairs
  intro p p' hp
  obtain ⟨hpl, hpr⟩ := hp
  exact (hrow p p' hpl hpr).mono fun _ hn => List.mem_append_left _ hn

theorem agree_selectRows {predicate : Expr}
    (hs : Agree (needed ++ predicate.columns) (source.rows M db) (source'.rows M db)) :
    Agree needed ((selectRows source predicate).rows M db)
      ((selectRows source' predicate).rows M db) :=
  (hs.filter M fun _ hn => List.mem_append_right _ hn).mono fun _ hn => List.mem_append_left _ hn

theorem agree_orderBy {terms : List OrderTerm} {limit : Option Nat}
    (hs : Agree (needed ++ terms.map OrderTerm.column) (source.rows M db) (source'.rows M db)) :
    Agree needed ((orderBy source terms limit).rows M db) ((orderBy source' terms limit).rows M db) := by
  have hsorted := hs.mergeSort M.toEngine fun _ hn => List.mem_append_right _ hn
  exact (hsorted.firstRows limit).mono fun _ hn => List.mem_append_left _ hn

theorem agree_selectColumns {columns columns' : List Text} (hin : ∀ name ∈ needed, name ∈ columns)
    (hin' : ∀ name ∈ needed, name ∈ columns')
    (hs : Agree columns' (source.rows M db) (source'.rows M db)) :
    Agree needed ((selectColumns source columns).rows M db)
      ((selectColumns source' columns').rows M db) := by
  refine hs.map fun r r' hr name hn => ?_
  rw [M.restrict_of_mem (hin name hn), M.restrict_of_mem (hin' name hn)]
  exact hr name (hin' name hn)

theorem agree_selectColumns_dropped {columns columns' : List Text}
    (hin : ∀ name ∈ needed, name ∈ columns) (hin' : ∀ name ∈ needed, name ∈ columns')
    (hs : Agree columns' (source.rows M db) (source'.rows M db)) :
    Agree needed ((selectColumns source columns).rows M db) (source'.rows M db) := by
  rw [← List.map_id (source'.rows M db)]
  refine hs.map fun r r' hr name hn => ?_
  rw [M.restrict_of_mem (hin name hn)]
  exact hr name (hin' name hn)

section Rename

variable {mapping : List Rename}

/-- A needed column had an old name, which the narrowed input still has. -/
theorem Narrows.exists_old (h : (renameColumns source mapping).Valid)
    (hin : ∀ name ∈ needed, name ∈ (renameColumns source mapping).schema)
    (hs : source.Narrows (needed.map (oldName mapping)) source') {name : Text} (hn : name ∈ needed) :
    ∃ old ∈ source'.schema, old ∈ needed.map (oldName mapping) ∧ renamed mapping old = name := by
  have hc : RenameChecks source.schema mapping := h.checked
  obtain ⟨old, ho, rfl⟩ := List.mem_map.mp (hin name hn)
  have hold := oldName_renamed hc.known hc.olds.nodup hc.news.nodup hc.named.nodup ho
  have hmem : old ∈ needed.map (oldName mapping) := List.mem_map.mpr ⟨_, hn, hold⟩
  exact ⟨old, hs.keeps old hmem ho, hmem, rfl⟩

theorem agree_renameColumns (h : (renameColumns source mapping).Valid)
    (hin : ∀ name ∈ needed, name ∈ (renameColumns source mapping).schema)
    (hs : source.Narrows (needed.map (oldName mapping)) source')
    (ha : Agree (needed.map (oldName mapping)) (source.rows M db) (source'.rows M db)) :
    Agree needed ((renameColumns source mapping).rows M db)
      ((renameColumns source' (mapping.filter fun r => source'.schema.contains r.old)).rows M db) := by
  have hc : RenameChecks source.schema mapping := h.checked
  refine ha.map fun r r' hr name hn => ?_
  obtain ⟨old, ho, hmem, rfl⟩ := Narrows.exists_old h hin hs hn
  rw [M.renamedRow_renamed hc.named.nodup (hs.within old ho), ← renamed_filter ho,
    M.renamedRow_renamed (hc.narrow hs.within hs.valid.named.nodup).named.nodup ho]
  exact hr old hmem

theorem agree_renameColumns_dropped (h : (renameColumns source mapping).Valid)
    (hin : ∀ name ∈ needed, name ∈ (renameColumns source mapping).schema)
    (hs : source.Narrows (needed.map (oldName mapping)) source')
    (hnil : (mapping.filter fun r => source'.schema.contains r.old) = [])
    (ha : Agree (needed.map (oldName mapping)) (source.rows M db) (source'.rows M db)) :
    Agree needed ((renameColumns source mapping).rows M db) (source'.rows M db) := by
  have hc : RenameChecks source.schema mapping := h.checked
  rw [← List.map_id (source'.rows M db)]
  refine ha.map fun r r' hr name hn => ?_
  obtain ⟨old, ho, hmem, rfl⟩ := Narrows.exists_old h hin hs hn
  have hsame : renamed mapping old = old := by
    rw [← renamed_filter ho, hnil]
    rfl
  rw [M.renamedRow_renamed hc.named.nodup (hs.within old ho), hsame]
  exact hr old hmem

end Rename

theorem agree_rawStatement {used produced : List Text} {template : Expr}
    (hs : source.Narrows (used ++ template.columns) source')
    (ha : Agree (used ++ template.columns) (source.rows M db) (source'.rows M db)) :
    Agree needed ((rawStatement source used produced template).rows M db)
      ((rawStatement source' used produced template).rows M db) := by
  -- the narrowed input has the same of the template's columns, so the statement reads the same ones
  have hfilter : template.columns.filter source'.schema.contains =
      template.columns.filter source.schema.contains := by
    refine List.filter_congr fun name hn => ?_
    rw [List.contains_eq_mem, List.contains_eq_mem, decide_eq_decide]
    exact ⟨hs.within name, hs.keeps name (List.mem_append_right _ hn)⟩
  have hreads : Agree (Text.appendNew used (template.columns.filter source.schema.contains))
      (source.rows M db) (source'.rows M db) := by
    refine ha.mono fun name hn => ?_
    rcases mem_appendNew.mp hn with hu | ht
    · exact List.mem_append_left _ hu
    · exact List.mem_append_right _ (List.mem_of_mem_filter ht)
  simp only [rows, hfilter, (agree_iff_map M.toEngine).mp hreads]
  exact agree_refl _ _

theorem agree_externalTransform {used produced : List Text} {transform : Transform}
    {incoming outgoing : Text} {temporary : Bool}
    (ha : Agree used (source.rows M db) (source'.rows M db)) :
    Agree needed
      ((externalTransform source used produced transform incoming outgoing temporary).rows M db)
      ((externalTransform source' used produced transform incoming outgoing temporary).rows M db) := by
  simp only [rows, (agree_iff_map M.toEngine).mp ha]
  exact agree_refl _ _

/-! ## All operators -/

/-- What a rebuilt tree does with the needed columns settles all the wanted ones. -/
theorem agree_of_needed {t' : Tree} (hs : t.Narrows wanted t')
    (h : Agree (wanted.filter t.schema.contains) (t.rows M db) (t'.rows M db)) :
    Agree wanted (t.rows M db) (t'.rows M db) :=
  h.of_fits (fits_rows M db t) fun r hr => (fits_rows M db t' r hr).mono hs.within

/-- **A narrowed tree has the rows of the tree**, as far as the wanted columns go. -/
theorem agree_narrowed (M : Meaning V) (db : Database V) (h : t.Valid) (wanted : List Text) :
    Agree wanted (t.rows M db) ((t.narrowed wanted).rows M db) := by
  induction t generalizing wanted with
  | table t =>
    refine agree_of_needed (narrows_narrowed h wanted) ?_
    refine (agree_refl t.columns _).map fun r r' hr name hn => ?_
    have hc : name ∈ t.columns := (mem_needed.mp hn).2
    rw [M.restrict_of_mem hc, M.restrict_of_mem (mem_keepOne hc hn)]
    exact hr name hc
  | extend source as partitionBy order ih =>
    have hs := h.input (c := source) (by simp [children])
    -- a name that is wanted but not in the schema is null on both sides
    have hnarrows := narrows_narrowed h wanted
    refine agree_of_needed hnarrows ?_
    simp only [narrowed]
    split
    · -- nothing it writes is wanted, so its source alone agrees
      rename_i hnil
      rw [List.isEmpty_iff] at hnil
      rw [live_eq_of_kept_nil hnil]
      exact agree_extend_dropped hnil (ih hs _)
    · exact agree_extend h (ih hs _)
  | project source groupBy aggregates ih =>
    refine agree_of_needed (narrows_narrowed h wanted) ?_
    exact agree_project h (ih (h.input (by simp [children])) _)
  | naturalJoin left right type ihl ihr =>
    have hl := h.input (c := left) (by simp [children])
    have hr := h.input (c := right) (by simp [children])
    refine agree_of_needed (narrows_narrowed h wanted) ?_
    exact agree_naturalJoin rfl (narrows_narrowed hl _) (narrows_narrowed hr _) (ihl hl _) (ihr hr _)
  | thetaJoin left right predicate type suffixes collisions ihl ihr =>
    have hl := h.input (c := left) (by simp [children])
    have hr := h.input (c := right) (by simp [children])
    refine agree_of_needed (narrows_narrowed h wanted) ?_
    exact agree_thetaJoin h rfl (narrows_narrowed hl _) (narrows_narrowed hr _) (ihl hl _) (ihr hr _)
  | selectRows source predicate ih =>
    refine agree_of_needed (narrows_narrowed h wanted) ?_
    exact agree_selectRows (ih (h.input (by simp [children])) _)
  | selectColumns source columns ih =>
    have hs := h.input (c := source) (by simp [children])
    refine agree_of_needed (narrows_narrowed h wanted) ?_
    have hin : ∀ name ∈ wanted.filter (selectColumns source columns).schema.contains,
        name ∈ columns := fun _ hn => (mem_needed.mp hn).2
    simp only [narrowed]
    split
    · exact agree_selectColumns_dropped hin (fun name hn => mem_keepOne (hin name hn) hn) (ih hs _)
    · exact agree_selectColumns hin (fun name hn => mem_keepOne (hin name hn) hn) (ih hs _)
  | renameColumns source mapping ih =>
    have hs := h.input (c := source) (by simp [children])
    refine agree_of_needed (narrows_narrowed h wanted) ?_
    have hin : ∀ name ∈ wanted.filter (renameColumns source mapping).schema.contains,
        name ∈ (renameColumns source mapping).schema := fun _ hn => (mem_needed.mp hn).2
    simp only [narrowed]
    split
    · rename_i hnil
      rw [List.isEmpty_iff] at hnil
      exact agree_renameColumns_dropped h hin (narrows_narrowed hs _) hnil (ih hs _)
    · exact agree_renameColumns h hin (narrows_narrowed hs _) (ih hs _)
  | orderBy source terms limit ih =>
    refine agree_of_needed (narrows_narrowed h wanted) ?_
    exact agree_orderBy (ih (h.input (by simp [children])) _)
  | rawStatement source used produced template ih =>
    have hs := h.input (c := source) (by simp [children])
    refine agree_of_needed (narrows_narrowed h wanted) ?_
    exact agree_rawStatement (narrows_narrowed hs _) (ih hs _)
  | externalTransform source used produced transform incoming outgoing temporary ih =>
    refine agree_of_needed (narrows_narrowed h wanted) ?_
    exact agree_externalTransform (ih (h.input (by simp [children])) _)

/-! ## The root -/

theorem rows_projected (M : Meaning V) (db : Database V) (t : Tree) (columns : List Text) :
    (t.projected columns).rows M db = (t.rows M db).map (M.restrict columns) := by
  unfold projected
  split
  · rename_i hsame
    rw [← hsame]
    exact (map_restrict_rows M db t fun _ hr => hr).symm
  · rfl

theorem rows_orderBy_nil (M : Meaning V) (db : Database V) (t : Tree) (limit : Option Nat) :
    (orderBy t [] limit).rows M db = firstRows limit (t.rows M db) := by
  rw [rows, M.mergeSort_nil]

/-- A limit takes the first rows of a tree: it becomes part of an ordering at the root, or of a new one
that does not order. -/
theorem limitTo_rows (h : t.Valid) (limit : Option Nat) :
    ∃ T, t.limitTo limit = .ok T ∧ T.Valid ∧ T.schema = t.schema ∧
      ∀ {V : Type u} [DecidableEq V] (M : Meaning V) (db : Database V),
        T.rows M db = firstRows limit (t.rows M db) := by
  unfold limitTo
  split
  · exact ⟨t, rfl, h, rfl, fun _ _ => rfl⟩
  · -- of two limits on one ordering, the smaller one is left
    rename_i n source terms m
    have hc : OrderChecks source.schema terms (some (min n m)) :=
      ⟨fun _ => Option.some_ne_none _, h.checked.known, h.checked.named⟩
    refine ⟨_, Pipeline.orderBy_ok_iff.mpr ⟨hc, rfl⟩,
      Checked.valid₁ hc rfl (h.input (by simp [children])), rfl, ?_⟩
    intro V _ M db
    simp only [rows, firstRows, List.take_take]
  · rename_i n source terms
    have hc : OrderChecks source.schema terms (some n) :=
      ⟨fun _ => Option.some_ne_none _, h.checked.known, h.checked.named⟩
    exact ⟨_, Pipeline.orderBy_ok_iff.mpr ⟨hc, rfl⟩,
      Checked.valid₁ hc rfl (h.input (by simp [children])), rfl, fun _ _ => rfl⟩
  · rename_i n _ _
    have hc : OrderChecks t.schema [] (some n) :=
      ⟨fun _ => Option.some_ne_none _, by simp, by simp, .nil⟩
    exact ⟨_, Pipeline.orderBy_ok_iff.mpr ⟨hc, rfl⟩, Checked.valid₁ hc rfl h, rfl,
      fun M db => rows_orderBy_nil M db t (some n)⟩

/-- Statements are made from the prepared tree. -/
theorem generate_eq {options : GenerateOptions} {T : Tree} (h : t.prepare options = .ok T)
    (d : Dialect) :
    t.generate d options = (Sql.plan d options.sourceLimit T).map fun plan => plan.steps d := by
  have hbind : t.generate d options =
      (Sql.plan d options.sourceLimit T >>= fun plan => pure (plan.steps d)) := by
    rw [generate, h]
    rfl
  rw [hbind]
  cases Sql.plan d options.sourceLimit T with
  | error e => rfl
  | ok plan => rfl

/--
**Limiting and narrowing keep the meaning of a tree.**

Whatever limit and whatever accepted columns are asked for, a tree comes out, and statements are made
from it. On every database and for every meaning of expressions, it has the first rows of the given
tree, cut to the columns asked for: the same rows, in the same order, each as often.
-/
theorem prepare_rows (h : t.Built) (options : GenerateOptions)
    (ha : t.Accepts options.outputColumns) :
    ∃ T, t.prepare options = .ok T ∧
      (∀ d, t.generate d options =
        (Sql.plan d options.sourceLimit T).map fun plan => plan.steps d) ∧
      T.schema = options.outputColumns.getD t.schema ∧
      ∀ {V : Type u} [DecidableEq V] (M : Meaning V) (db : Database V),
        T.rows M db =
          (firstRows options.outputLimit (t.rows M db)).map
            (M.restrict (options.outputColumns.getD t.schema)) := by
  obtain ⟨L, hL, hvalid, hschema, hrows⟩ := limitTo_rows.{u} h.valid options.outputLimit
  have haccepts : L.Accepts options.outputColumns := fun columns hc => hschema ▸ ha columns hc
  have hnarrow := (narrow_ok_iff hvalid).mpr ⟨haccepts, rfl⟩
  rw [hschema] at hnarrow
  have hprepare : t.prepare options =
      .ok ((L.narrowed (options.outputColumns.getD t.schema)).projected
        (options.outputColumns.getD t.schema)) := by
    rw [prepare, hL]
    exact hnarrow
  refine ⟨_, hprepare, ?_, schema_projected _ _, ?_⟩
  · exact fun d => generate_eq hprepare d
  · -- cut to the wanted columns, agreement on them is equality
    intro V _ M db
    rw [rows_projected, ← (agree_iff_map M.toEngine).mp (agree_narrowed M db hvalid _), hrows]

/-- At most five rows of the joined pair, with the largest `y` first. -/
def sortedPair : Tree := .orderBy joinedPair [⟨[121], true⟩] (some 5)

theorem built_sortedPair : sortedPair.Built := by
  have hsorted : Pipeline.orderBy joinedPair [⟨[121], true⟩] (some 5) = .ok sortedPair := rfl
  exact .orderBy built_joinedPair hsorted

/-- The column `i_a` of the three first rows: the ordering still reads `y`, and its limit gets smaller. -/
theorem prepare_rows_sortedPair :
    sortedPair.Built ∧ sortedPair.Accepts (some [[105, 95, 97]]) ∧
      ∃ T, sortedPair.prepare ⟨some 3, none, some [[105, 95, 97]]⟩ = .ok T ∧
        T.schema = [[105, 95, 97]] ∧
        ∀ (M : Meaning Nat) (db : Database Nat),
          T.rows M db = ((sortedPair.rows M db).take 3).map (M.restrict [[105, 95, 97]]) := by
  have haccepts : sortedPair.Accepts (some [[105, 95, 97]]) := by
    intro columns hc
    obtain rfl := Option.some.inj hc
    decide
  obtain ⟨T, hT, -, hschema, hrows⟩ :=
    prepare_rows built_sortedPair ⟨some 3, none, some [[105, 95, 97]]⟩ haccepts
  exact ⟨built_sortedPair, haccepts, T, hT, hschema, hrows⟩

end SqlPipeline.Tree
