import Mathlib.Data.List.GetD
import Mathlib.Logic.Function.Basic
import SqlPipeline.Proofs.Stages

/-!
# What a tree means

The rows that a tree stands for, on a given database, as a list. A row gives a
value for every name and is null where it has no column, so that two rows over the
same columns are equal exactly if they agree on them.

Nothing is known of expressions, of statements written by hand and of delegated
work. A `Meaning` says what they amount to, and it is told no more than they can
know: before it is asked, rows are restricted to the columns that the expression
names, together with the columns of its window if it has one, or to the columns that
the statement or the work is said to read.

The rows of a tree have no column that the tree does not have.
-/

namespace SqlPipeline

universe u

/-- A row by column names, null where it has no column. -/
abbrev Row (V : Type u) := Text → V

/-- The rows of each table, by the schema that holds it and by its name. -/
abbrev Database (V : Type u) := Option Text → Text → List (Row V)

/-- What an engine does with values, whatever the expressions are. -/
structure Engine (V : Type u) where
  null : V
  /-- Whether the value of a predicate lets a row pass. -/
  holds : V → Bool
  /-- Equality of join keys. -/
  equal : V → V → Bool
  /-- Whether a value may stand before another one in an ordering. -/
  precedes (descending : Bool) : V → V → Bool
  /-- A statement written by hand, on the columns that it reads. -/
  raw : Expr → List Text → List (Row V) → List (Row V)
  /-- Delegated work, on the columns that it reads. -/
  work : Transform → List Text → List (Row V) → List (Row V)

/-- An engine, and what expressions amount to in it. -/
structure Meaning (V : Type u) extends Engine V where
  /-- The value in a row. -/
  scalar : Expr → Row V → V
  /-- The value at a place among the rows around it. -/
  window : (partitionBy : List Text) → (orderBy : List OrderTerm) → Expr → List (Row V) → Nat → V
  /-- The value of a group. -/
  aggregate : Expr → List (Row V) → V

/-! ## Lists of anything -/

/-- The first rows, or all of them without a limit. -/
def firstRows {α : Type u} (limit : Option Nat) (rows : List α) : List α :=
  match limit with
  | some n => rows.take n
  | none => rows

/-- Whether rows of the left side without a partner are kept. -/
def JoinType.keepsLeft : JoinType → Bool
  | left | full => true
  | inner | right => false

/-- Whether rows of the right side without a partner are kept. -/
def JoinType.keepsRight : JoinType → Bool
  | right | full => true
  | inner | left => false

/-- The pairs of a join. Each row of the left side comes with its partners in order, and the rows of the
right side that have none come last. -/
def joinPairs {α β : Type u} (type : JoinType) (on : α → β → Bool) (left : List α) (right : List β) :
    List (Option α × Option β) :=
  (left.flatMap fun l =>
      match right.filter (on l) with
      | [] => if type.keepsLeft then [(some l, none)] else []
      | partners => partners.map fun r => (some l, some r)) ++
    if type.keepsRight then
      (right.filter fun r => !left.any fun l => on l r).map fun r => (none, some r)
    else []

/-- Every table cut to its first rows. -/
def Database.cut {V : Type u} (db : Database V) (limit : Option Nat) : Database V :=
  fun qualifier name => firstRows limit (db qualifier name)

/-- The rows that agree on the given columns, group after group in order of first appearance. Without
columns all rows are one group, even if there are none. -/
def groups {V : Type u} [DecidableEq V] (groupBy : List Text) (rows : List (Row V)) :
    List (List (Row V)) :=
  if groupBy.isEmpty then [rows]
  else (rows.map fun r => groupBy.map r).eraseDups.map fun key =>
    rows.filter fun r => groupBy.map r = key

namespace Engine

variable {V : Type u} (E : Engine V)

/-- The row without a column. -/
def blank : Row V := fun _ => E.null

/-- The given columns of a row. -/
def restrict (columns : List Text) (r : Row V) : Row V :=
  fun name => if name ∈ columns then r name else E.null

/-- Whether a row may stand before another one, by the first term that tells them apart. -/
def rowPrecedes : List OrderTerm → Row V → Row V → Bool
  | [], _, _ => true
  | t :: rest, a, b =>
    E.precedes t.descending (a t.column) (b t.column) &&
      (!E.precedes t.descending (b t.column) (a t.column) || rowPrecedes rest a b)

/-- Whether two rows agree on all the keys. -/
def keysAgree (keys : List Text) (l r : Row V) : Bool := keys.all fun name => E.equal (l name) (r name)

/-- The row of a pair in a natural join. A column of the left side comes from the left row if the pair
has one, and every other column from the right row. -/
def naturalRow (left right : List Text) (pair : Option (Row V) × Option (Row V)) : Row V :=
  fun name =>
    if name ∈ left ∧ pair.1.isSome then pair.1.getD E.blank name
    else if name ∈ right then pair.2.getD E.blank name
    else E.null

/-- The row of a pair in a join on a predicate. -/
def thetaRow (columns : List JoinColumn) (pair : Option (Row V) × Option (Row V)) : Row V :=
  fun name =>
    match columns.find? fun c => c.output == name with
    | some c => (if c.fromLeft then pair.1 else pair.2).getD E.blank c.input
    | none => E.null

/-- A row under new names. -/
def renamedRow (columns : List Text) (mapping : List Rename) (r : Row V) : Row V :=
  fun name =>
    match columns.find? fun old => renamed mapping old == name with
    | some old => r old
    | none => E.null

end Engine

namespace Meaning

variable {V : Type u} (M : Meaning V)

/-- Whether a row passes a predicate. -/
def passes (predicate : Expr) (r : Row V) : Bool :=
  M.holds (M.scalar predicate (M.restrict predicate.columns r))

/-- The value of an expression at a place among rows, over a window if columns are given. -/
def valueAt (partitionBy : List Text) (order : List OrderTerm) (e : Expr) (rows : List (Row V))
    (i : Nat) : V :=
  if (windowColumns partitionBy order).isEmpty then
    M.scalar e (M.restrict e.columns (rows.getD i M.blank))
  else
    M.window partitionBy order e
      (rows.map (M.restrict (e.columns ++ windowColumns partitionBy order))) i

/-- Runs one assignment on all rows. -/
def assign (partitionBy : List Text) (order : List OrderTerm) (rows : List (Row V)) (a : Assignment) :
    List (Row V) :=
  rows.mapIdx fun i r => Function.update r a.target (M.valueAt partitionBy order a.expr rows i)

/-- The row of a group. -/
def groupRow (groupBy : List Text) (aggregates : List Assignment) (rows : List (Row V)) : Row V :=
  fun name =>
    if name ∈ groupBy then rows.head?.getD M.blank name
    else
      match aggregates.find? fun a => a.target == name with
      | some a => M.aggregate a.expr (rows.map (M.restrict a.reads))
      | none => M.null

end Meaning

/-- **The rows of a tree** on a database. -/
def Tree.rows {V : Type u} [DecidableEq V] (M : Meaning V) (db : Database V) : Tree → List (Row V)
  | table t => (db t.qualifier t.name).map (M.restrict t.columns)
  | extend source assignments partitionBy order =>
    assignments.foldl (M.assign partitionBy order) (source.rows M db)
  | project source groupBy aggregates =>
    (groups groupBy (source.rows M db)).map (M.groupRow groupBy aggregates)
  | naturalJoin left right type =>
    (joinPairs type (M.keysAgree (sharedColumns left.schema right.schema)) (left.rows M db)
      (right.rows M db)).map (M.naturalRow left.schema right.schema)
  | thetaJoin left right predicate type suffixes collisions =>
    let columns := joinColumns left.schema right.schema collisions suffixes
    let on (l r : Row V) : Bool := M.passes predicate (M.thetaRow columns (some l, some r))
    (joinPairs type on (left.rows M db) (right.rows M db)).map (M.thetaRow columns)
  | selectRows source predicate => (source.rows M db).filter (M.passes predicate)
  | selectColumns source columns => (source.rows M db).map (M.restrict columns)
  | renameColumns source mapping => (source.rows M db).map (M.renamedRow source.schema mapping)
  | orderBy source terms limit =>
    firstRows limit ((source.rows M db).mergeSort (M.rowPrecedes terms))
  | rawStatement source used produced template =>
    let reads := Text.appendNew used (template.columns.filter source.schema.contains)
    (M.raw template reads ((source.rows M db).map (M.restrict reads))).map (M.restrict produced)
  | externalTransform source used produced transform _ _ _ =>
    (M.work transform used ((source.rows M db).map (M.restrict used))).map (M.restrict produced)

/-! ## Pairs -/

/-- A pair of a join has partners that meet its condition, or a side that keeps its rows. -/
theorem mem_joinPairs {α β : Type u} {type : JoinType} {on : α → β → Bool} {left : List α}
    {right : List β} {p : Option α × Option β} (h : p ∈ joinPairs type on left right) :
    (∃ l r, p = (some l, some r) ∧ on l r = true) ∨
      (∃ l, p = (some l, none) ∧ type.keepsLeft = true) ∨
        ∃ r, p = (none, some r) ∧ type.keepsRight = true := by
  rcases List.mem_append.mp h with h | h
  · -- pairs of the left rows: with no partner only when the left side is kept
    obtain ⟨l, -, hl⟩ := List.mem_flatMap.mp h
    split at hl
    · split at hl
      · rename_i hkeeps
        exact Or.inr (Or.inl ⟨l, List.mem_singleton.mp hl, hkeeps⟩)
      · exact absurd hl (by simp)
    · obtain ⟨r, hr, rfl⟩ := List.mem_map.mp hl
      exact Or.inl ⟨l, r, rfl, (List.mem_filter.mp hr).2⟩
  · split at h
    · rename_i hkeeps
      obtain ⟨r, -, rfl⟩ := List.mem_map.mp h
      exact Or.inr (Or.inr ⟨r, rfl, hkeeps⟩)
    · exact absurd h (by simp)

/-! ## Rows by place -/

theorem mapIdx_eq_map {α β : Type u} (f : α → β) (rows : List α) :
    (rows.mapIdx fun _ r => f r) = rows.map f := by
  rw [List.mapIdx_eq_iff]
  exact fun i => List.getElem?_map

theorem map_mapIdx {α β γ : Type u} (g : β → γ) (f : Nat → α → β) (rows : List α) :
    (rows.mapIdx f).map g = rows.mapIdx fun i r => g (f i r) := by
  rw [← mapIdx_eq_map, List.mapIdx_mapIdx]
  rfl

/-- Without terms, sorting keeps the order. -/
theorem Engine.mergeSort_nil {V : Type u} (E : Engine V) (rows : List (Row V)) :
    rows.mergeSort (E.rowPrecedes []) = rows :=
  List.mergeSort_of_pairwise (List.pairwise_of_forall fun _ _ => rfl)

/-! ## Columns of rows -/

namespace Engine

variable {V : Type u} (E : Engine V) {columns part : List Text} {name : Text}

theorem restrict_of_mem (h : name ∈ columns) (r : Row V) : E.restrict columns r name = r name :=
  if_pos h

theorem restrict_of_not_mem (h : name ∉ columns) (r : Row V) :
    E.restrict columns r name = E.null :=
  if_neg h

@[simp] theorem restrict_blank (columns : List Text) : E.restrict columns E.blank = E.blank := by
  funext name
  exact ite_self _

/-- The row has no other columns than these. -/
def Fits (columns : List Text) (r : Row V) : Prop := ∀ name, name ∉ columns → r name = E.null

variable {E}

theorem Fits.mono {r : Row V} (h : E.Fits part r) (hs : ∀ name ∈ part, name ∈ columns) :
    E.Fits columns r :=
  fun name hn => h name fun hp => hn (hs name hp)

theorem Fits.restrict_eq {r : Row V} (h : E.Fits columns r) : E.restrict columns r = r := by
  funext name
  by_cases hn : name ∈ columns
  · exact E.restrict_of_mem hn r
  · rw [E.restrict_of_not_mem hn, h name hn]

theorem fits_restrict (columns : List Text) (r : Row V) : E.Fits columns (E.restrict columns r) :=
  fun _ hn => E.restrict_of_not_mem hn r

theorem Fits.update {r : Row V} (h : E.Fits columns r) (target : Text) (v : V)
    (ht : target ∈ columns) : E.Fits columns (Function.update r target v) := by
  intro name hn
  have hne : name ≠ target := fun he => hn (he ▸ ht)
  rw [Function.update_of_ne hne]
  exact h name hn

theorem fits_naturalRow (left right : List Text) (pair : Option (Row V) × Option (Row V)) :
    E.Fits (naturalColumns left right) (E.naturalRow left right pair) := by
  intro name hn
  rw [mem_naturalColumns, not_or] at hn
  rw [naturalRow, if_neg (fun h => hn.1 h.1), if_neg hn.2]

theorem fits_thetaRow (columns : List JoinColumn) (pair : Option (Row V) × Option (Row V)) :
    E.Fits (columns.map JoinColumn.output) (E.thetaRow columns pair) := by
  intro name hn
  rw [thetaRow, find?_key_eq_none hn]

theorem fits_renamedRow (columns : List Text) (mapping : List Rename) (r : Row V) :
    E.Fits (columns.map (renamed mapping)) (E.renamedRow columns mapping r) := by
  intro name hn
  rw [renamedRow, find?_key_eq_none hn]

end Engine

namespace Meaning

variable {V : Type u} {M : Meaning V}

theorem fits_groupRow (groupBy : List Text) (aggregates : List Assignment) (rows : List (Row V)) :
    M.Fits (groupBy ++ aggregates.map Assignment.target) (M.groupRow groupBy aggregates rows) := by
  intro name hn
  rw [List.mem_append, not_or] at hn
  rw [groupRow, if_neg hn.1, find?_key_eq_none hn.2]

theorem fits_assign {columns partitionBy : List Text} {order : List OrderTerm} {rows : List (Row V)}
    {a : Assignment} (h : ∀ r ∈ rows, M.Fits columns r) (ht : a.target ∈ columns) :
    ∀ r ∈ M.assign partitionBy order rows a, M.Fits columns r := by
  intro r hr
  obtain ⟨i, hi, rfl⟩ := List.mem_mapIdx.mp hr
  exact (h _ (List.getElem_mem hi)).update _ _ ht

theorem fits_foldl_assign {columns partitionBy : List Text} {order : List OrderTerm}
    {rows : List (Row V)} {as : List Assignment} (h : ∀ r ∈ rows, M.Fits columns r)
    (ht : ∀ a ∈ as, a.target ∈ columns) :
    ∀ r ∈ as.foldl (M.assign partitionBy order) rows, M.Fits columns r := by
  induction as generalizing rows with
  | nil => exact h
  | cons a rest ih =>
    exact ih (fits_assign h (ht a List.mem_cons_self)) fun b hb => ht b (List.mem_cons_of_mem _ hb)

end Meaning

theorem map_firstRows {α β : Type u} (f : α → β) (limit : Option Nat) (rows : List α) :
    (firstRows limit rows).map f = firstRows limit (rows.map f) := by
  cases limit with
  | none => rfl
  | some n => exact List.map_take

theorem mem_of_mem_firstRows {α : Type u} {limit : Option Nat} {rows : List α} {r : α}
    (h : r ∈ firstRows limit rows) : r ∈ rows := by
  cases limit with
  | none => exact h
  | some n => exact List.mem_of_mem_take h

/-- **The rows of a tree have the tree's columns** and no others. -/
theorem Tree.fits_rows {V : Type u} [DecidableEq V] (M : Meaning V) (db : Database V) (t : Tree) :
    ∀ r ∈ t.rows M db, M.Fits t.schema r := by
  -- most operators build every row anew, and what they build fits
  have hmap : ∀ {α : Type u} {rows : List α} {f : α → Row V} {columns : List Text},
      (∀ a, M.Fits columns (f a)) → ∀ r ∈ rows.map f, M.Fits columns r := by
    intro α rows f columns hf r hr
    obtain ⟨a, -, rfl⟩ := List.mem_map.mp hr
    exact hf a
  induction t with
  | table t => exact hmap (Engine.fits_restrict _)
  | extend source assignments partitionBy order ih =>
    -- an extend writes into the rows of its source, so those must fit the larger schema first
    refine Meaning.fits_foldl_assign (fun r hr => (ih r hr).mono ?_) ?_
    · exact fun name hn => mem_appendNew.mpr (Or.inl hn)
    · exact fun a ha => mem_appendNew.mpr (Or.inr (List.mem_map.mpr ⟨a, ha, rfl⟩))
  | project source groupBy aggregates _ => exact hmap (Meaning.fits_groupRow _ _)
  | naturalJoin left right type _ _ => exact hmap (Engine.fits_naturalRow _ _)
  | thetaJoin left right predicate type suffixes collisions _ _ =>
    exact hmap (Engine.fits_thetaRow _)
  | selectRows source predicate ih => exact fun r hr => ih r (List.mem_of_mem_filter hr)
  | selectColumns source columns _ => exact hmap (Engine.fits_restrict _)
  | renameColumns source mapping _ => exact hmap (Engine.fits_renamedRow _ _)
  | orderBy source terms limit ih =>
    exact fun r hr => ih r (List.mem_mergeSort.mp (mem_of_mem_firstRows hr))
  | rawStatement source used produced template _ => exact hmap (Engine.fits_restrict _)
  | externalTransform source used produced transform incoming outgoing temporary _ =>
    exact hmap (Engine.fits_restrict _)

/-- Cutting rows of a tree to the tree's columns changes nothing. -/
theorem Tree.map_restrict_rows {V : Type u} [DecidableEq V] (M : Meaning V) (db : Database V)
    (t : Tree) {rows : List (Row V)} (h : ∀ r ∈ rows, r ∈ t.rows M db) :
    rows.map (M.restrict t.schema) = rows := by
  have hid : rows.map (M.restrict t.schema) = rows.map id :=
    List.map_congr_left fun r hr => (fits_rows M db t r (h r hr)).restrict_eq
  rw [hid, List.map_id]

end SqlPipeline
