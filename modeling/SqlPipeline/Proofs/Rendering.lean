import SqlPipeline.Proofs.QueryMeaning

/-!
# The SELECT of an operator

`Query.Renders` is what compiling owes: a query that has the columns of a tree, in
order, and its rows on every database and under every reading. One lemma for each
operator says that its SELECT pays the debt if the queries of its inputs paid
theirs. They say nothing of how subqueries are numbered, except that the two sides
of a join must not get the same number.

An extension takes one SELECT for each stage. All values of a SELECT come from the
row below it, which is just how a stage runs, so the stages of a batch carry over to
lists of rows: a value is then one for each place, and the columns of the window are
those that nobody may write.
-/

namespace SqlPipeline.Sql

universe u

/-! ## Resolved expressions -/

/-- A piece with its column resolved. -/
def resolvedPart (resolve : Text → Ref) : Piece → Part
  | .var name => .ref (resolve name)
  | .const value => .literal value
  | .text value => .text value
  | .input => .input

/-- An expression with its columns resolved, whatever its constants are. -/
def resolved (resolve : Text → Ref) (e : Expr) : Term := e.pieces.map (resolvedPart resolve)

theorem resolvePiece_ok {resolve : Text → Ref} {piece : Piece} {part : Part}
    (h : resolvePiece resolve piece = .ok part) : part = resolvedPart resolve piece := by
  unfold resolvePiece at h
  split at h
  · exact (Except.ok.inj h).symm
  · split at h
    · exact (Except.ok.inj h).symm
    · cases h
  · exact (Except.ok.inj h).symm
  · exact (Except.ok.inj h).symm
  · exact (Except.ok.inj h).symm

theorem resolvePieces_ok {resolve : Text → Ref} {pieces : List Piece} {t : Term}
    (h : resolvePieces resolve pieces = .ok t) : t = pieces.map (resolvedPart resolve) := by
  induction pieces generalizing t with
  | nil => exact (Except.ok.inj h).symm
  | cons piece rest ih =>
    rw [resolvePieces] at h
    obtain ⟨part, hpart, h⟩ := bind_ok_iff.mp h
    obtain ⟨parts, hparts, h⟩ := bind_ok_iff.mp h
    rw [pure_ok_iff] at h
    rw [h, resolvePiece_ok hpart, ih hparts]
    rfl

theorem resolveExpr_ok {resolve : Text → Ref} {e : Expr} {t : Term}
    (h : resolveExpr resolve e = .ok t) : t = resolved resolve e :=
  resolvePieces_ok h

theorem marks_resolved (resolve : Text → Ref) (e : Expr) :
    (resolved resolve e).map Mark.ofPart = e.pieces.map Mark.ofPiece := by
  rw [resolved, List.map_map]
  refine List.map_congr_left fun piece _ => ?_
  cases piece with
  | var name => rfl
  | const value => rfl
  | text value => rfl
  | input => rfl

theorem refs_resolved (resolve : Text → Ref) (e : Expr) :
    (resolved resolve e).refs = (gapsOf e).map resolve := by
  rw [resolved, Term.refs, gapsOf, List.filterMap_map, List.map_filterMap]
  refine List.filterMap_congr fun piece _ => ?_
  cases piece with
  | var name => rfl
  | const value => rfl
  | text value => rfl
  | input => rfl

theorem mem_columns_of_mem_gapsOf {e : Expr} {name : Text} (h : name ∈ gapsOf e) :
    name ∈ e.columns :=
  mem_appendNew.mpr (Or.inr h)

namespace Reading

variable {V : Type u} (R : Reading V)

/-- The gaps of an expression are filled from the columns that it names. -/
theorem gaps_restrict {e : Expr} {columns : List Text} (h : ∀ name ∈ e.columns, name ∈ columns)
    (r : Row V) : (gapsOf e).map (R.restrict columns r) = (gapsOf e).map r :=
  List.map_congr_left fun name hn =>
    R.restrict_of_mem (h name (mem_columns_of_mem_gapsOf hn)) r

/-- A resolved expression has the value of the expression. -/
theorem term_resolved {e : Expr} {resolve : Text → Ref} {read : Ref → V} {r : Row V}
    (h : ∀ name ∈ e.columns, read (resolve name) = r name) :
    R.term (resolved resolve e) read = R.meaning.scalar e (R.restrict e.columns r) := by
  have hvalues : (gapsOf e).map (read ∘ resolve) = (gapsOf e).map r :=
    List.map_congr_left fun name hn => h name (mem_columns_of_mem_gapsOf hn)
  rw [term, marks_resolved, refs_resolved, List.map_map, hvalues, meaning]
  simp only [R.gaps_restrict fun _ hn => hn]

/-- A resolved predicate lets the rows pass that the predicate lets pass. -/
theorem holds_resolved {e : Expr} {resolve : Text → Ref} {read : Ref → V} {r : Row V}
    (h : ∀ name ∈ e.columns, read (resolve name) = r name) :
    R.holds (R.term (resolved resolve e) read) = R.meaning.passes e r := by
  rw [R.term_resolved h]
  rfl

variable [DecidableEq V]

theorem value_aggregate (scope : Nat) (rows : List (Row V)) (i : Nat) (r : Row V) (e : Expr) :
    R.value (R.inRow scope) rows i r (.aggregate (resolved .bare e)) =
      R.meaning.aggregate e (rows.map (R.restrict e.columns)) := by
  have hgaps : ∀ r : Row V, ((gapsOf e).map Ref.bare).map (R.inRow scope r) =
      (gapsOf e).map (R.restrict e.columns r) := by
    intro r
    rw [R.gaps_restrict (fun _ hn => hn), List.map_map]
    rfl
  simp only [value, meaning, marks_resolved, refs_resolved, hgaps, List.map_map]
  rfl

/-- A computed item has the value that the assignment writes. -/
theorem value_computed (scope : Nat) (rows : List (Row V)) {i : Nat} {r : Row V}
    (hr : rows.getD i R.blank = r) (partitionBy : List Text) (order : List OrderTerm) (e : Expr) :
    R.value (R.inRow scope) rows i r
        (.computed (resolved .bare e) (windowOf partitionBy order)) =
      R.meaning.valueAt partitionBy order e rows i := by
  -- without columns there is no window, and then the value is one of the row alone
  by_cases hw : partitionBy = [] ∧ order = []
  · obtain ⟨rfl, rfl⟩ := hw
    have hterm : R.term (resolved .bare e) (R.inRow scope r) =
        R.meaning.scalar e (R.restrict e.columns r) := R.term_resolved fun _ _ => rfl
    rw [← hr] at hterm ⊢
    exact hterm
  · have hwindow : windowOf partitionBy order = some ⟨partitionBy, order⟩ := by
      simp [windowOf, hw]
    have hcolumns : (windowColumns partitionBy order).isEmpty = false := by
      simpa [windowColumns] using hw
    have hrow : ∀ b : Row V,
        (⟨((gapsOf e).map Ref.bare).map (R.inRow scope b),
            partitionBy.map fun name => R.inRow scope b (.bare name),
            order.map fun o => R.inRow scope b (.bare o.column)⟩ : WindowRow V) =
          let seen := R.restrict (e.columns ++ windowColumns partitionBy order) b
          ⟨(gapsOf e).map seen, partitionBy.map seen, order.map fun o => seen o.column⟩ := by
      intro b
      simp only [List.map_map, WindowRow.mk.injEq]
      refine ⟨?_, ?_, ?_⟩
      · exact (R.gaps_restrict (fun _ hn => List.mem_append_left _ hn) b).symm
      · refine List.map_congr_left fun name hn => (R.restrict_of_mem ?_ b).symm
        exact List.mem_append_right _ (List.mem_append_left _ hn)
      · refine List.map_congr_left fun o ho => (R.restrict_of_mem ?_ b).symm
        exact List.mem_append_right _ (List.mem_append_right _ (List.mem_map.mpr ⟨o, ho, rfl⟩))
    simp only [value, hwindow, marks_resolved, refs_resolved, hrow]
    rw [Meaning.valueAt, hcolumns]
    simp only [meaning, List.map_map]
    rfl

/-- Join keys that count as equal are the same value. -/
def Exact (R : Reading V) : Prop := ∀ a b, R.equal a b = true → a = b

end Reading

/-! ## What compiling owes -/

/-- The query has the columns of the tree, in order, and its rows. -/
structure Query.Renders (limit : Option Nat) (t : Tree) (q : Query) : Prop where
  output : q.output = t.schema
  rows : ∀ {V : Type u} [DecidableEq V] (R : Reading V), R.Exact → ∀ db : Database V,
    q.rows R db = t.rows R.meaning (db.cut limit)

namespace Query

variable {limit : Option Nat} {source left right : Tree} {q leftQuery rightQuery : Query}

theorem Renders.of_table (limit : Option Nat) (t : Table) :
    Renders.{u} limit (.table t) (.read t.columns t.qualifier t.name limit) where
  output := rfl
  rows _ _ _ := (map_firstRows _ limit _).symm

theorem Renders.of_selectRows {predicate : Expr} (h : Renders.{u} limit source q) (scope : Nat) :
    Renders.{u} limit (.selectRows source predicate)
      (.select (source.schema.map Item.plain) q scope
        ⟨some (resolved .bare predicate), [], [], none⟩) where
  output := output_columns output_plain _
  rows R hR db := by
    have hpass : (fun r => R.holds (R.term (resolved .bare predicate) (R.inRow scope r))) =
        R.meaning.passes predicate := funext fun r => R.holds_resolved fun _ _ => rfl
    rw [rows_select_plain, Reading.filtered, R.mergeSort_nil, hpass, h.rows R hR db]
    exact Tree.map_restrict_rows R.meaning (db.cut limit) source fun r hr => List.mem_of_mem_filter hr

theorem Renders.of_selectColumns {columns : List Text} (h : Renders.{u} limit source q) (scope : Nat) :
    Renders.{u} limit (.selectColumns source columns)
      (.select (columns.map Item.plain) q scope .empty) where
  output := output_columns output_plain _
  rows R hR db := by
    rw [Clauses.empty, rows_select_plain, Reading.filtered, R.mergeSort_nil, h.rows R hR db]
    rfl

theorem Renders.of_orderBy {terms : List OrderTerm} {n : Option Nat} (h : Renders.{u} limit source q)
    (scope : Nat) :
    Renders.{u} limit (.orderBy source terms n)
      (.select (source.schema.map Item.plain) q scope ⟨none, [], terms, n⟩) where
  output := output_columns output_plain _
  rows R hR db := by
    rw [rows_select_plain, Reading.filtered, h.rows R hR db]
    exact Tree.map_restrict_rows R.meaning (db.cut limit) source fun r hr =>
      List.mem_mergeSort.mp (mem_of_mem_firstRows hr)

/-- Choosing columns of an ordering can be done while ordering. -/
theorem Renders.of_ordered {columns : List Text} {terms : List OrderTerm} {n : Option Nat}
    (h : Renders.{u} limit source q) (scope : Nat) :
    Renders.{u} limit (.selectColumns (.orderBy source terms n) columns)
      (.select (columns.map Item.plain) q scope ⟨none, [], terms, n⟩) where
  output := output_columns output_plain _
  rows R hR db := by
    rw [rows_select_plain, Reading.filtered, h.rows R hR db]
    rfl

theorem output_renameItem (mapping : List Rename) (name : Text) :
    (renameItem mapping name).output = renamed mapping name := by
  unfold renameItem Item.output
  by_cases h : renamed mapping name = name
  · simp only [if_pos h]
    exact h.symm
  · simp only [if_neg h]

theorem Renders.of_renameColumns {mapping : List Rename} (h : Renders.{u} limit source q)
    (scope : Nat) :
    Renders.{u} limit (.renameColumns source mapping)
      (.select (source.schema.map (renameItem mapping)) q scope .empty) where
  output := output_items (output_renameItem mapping)
  rows R hR db := by
    have hplain : ∀ item ∈ source.schema.map (renameItem mapping),
        item.value.isAggregate = false := by
      intro item hi
      obtain ⟨name, -, rfl⟩ := List.mem_map.mp hi
      rfl
    -- an item finds the old name by its new one, as the renamed row does
    have hrow : ∀ rows, R.itemRow (R.inRow scope) rows (source.schema.map (renameItem mapping)) =
        fun _ r => R.renamedRow source.schema mapping r := by
      intro rows
      funext i r name
      rw [Reading.itemRow, Engine.renamedRow, find?_items (output_renameItem mapping)]
      cases source.schema.find? fun old => renamed mapping old == name with
      | none => rfl
      | some old => rfl
    rw [rows_select R hplain, h.rows R hR db, hrow]
    exact mapIdx_eq_map _ _

/-- The aggregates of a select list, each under its name. -/
def aggregateItem (a : Assignment) : Item := ⟨.aggregate (resolved .bare a.expr), some a.target⟩

theorem output_aggregateItem (a : Assignment) : (aggregateItem a).output = a.target := rfl

theorem Renders.of_project {groupBy : List Text} {aggregates : List Assignment}
    (hne : groupBy = [] → aggregates ≠ []) (h : Renders.{u} limit source q) (scope : Nat) :
    Renders.{u} limit (.project source groupBy aggregates)
      (.select (groupBy.map Item.plain ++ aggregates.map aggregateItem) q scope
        ⟨none, groupBy, [], none⟩) where
  output := by
    rw [Query.output, List.map_append, output_columns output_plain,
      output_items output_aggregateItem]
    rfl
  rows R hR db := by
    have hgrouped : (!groupBy.isEmpty ||
        (groupBy.map Item.plain ++ aggregates.map aggregateItem).any
          fun item => item.value.isAggregate) = true := by
      cases groupBy with
      | cons name rest => rfl
      | nil =>
        cases aggregates with
        | cons a rest => rfl
        | nil => exact absurd rfl (hne rfl)
    have hrow : ∀ rows, R.itemRow (R.inRow scope) rows
        (groupBy.map Item.plain ++ aggregates.map aggregateItem) 0 (rows.head?.getD R.blank) =
          R.meaning.groupRow groupBy aggregates rows := by
      intro rows
      funext name
      -- a column of the groups comes first, as it does in the select list
      rw [Reading.itemRow, Meaning.groupRow, List.find?_append, find?_items output_plain, find?_name,
        find?_items output_aggregateItem]
      by_cases hn : name ∈ groupBy
      · rw [if_pos hn, if_pos hn]
        rfl
      · rw [if_neg hn, if_neg hn]
        cases aggregates.find? fun a => a.target == name with
        | none => rfl
        | some a => exact R.value_aggregate scope rows 0 _ a.expr
    simp only [Query.rows, Reading.filtered, Reading.selected, hgrouped, if_true, hrow, R.ordered_nil,
      List.map_map, h.rows R hR db]
    rfl

/-! ## Joins -/

section Join

variable {type : JoinType} {leftAlias rightAlias : Nat}

theorem output_joinItem (leftAlias rightAlias : Nat) (c : JoinColumn) :
    (joinItem leftAlias rightAlias c).output = c.output := by
  unfold joinItem Item.output
  by_cases h : c.output = c.input
  · simp only [if_pos h]
    exact h.symm
  · simp only [if_neg h]

section Pair

variable {V : Type u} (R : Reading V) (columns : List Text) (p : Option (Row V) × Option (Row V))

theorem inPair_left (name : Text) :
    R.inPair columns leftAlias rightAlias p (.through leftAlias name) = p.1.getD R.blank name :=
  if_pos rfl

/-- The right side is reached because the sides have different aliases. -/
theorem inPair_right (hne : leftAlias ≠ rightAlias) (name : Text) :
    R.inPair columns leftAlias rightAlias p (.through rightAlias name) = p.2.getD R.blank name := by
  rw [Reading.inPair, if_neg hne.symm, if_pos rfl]

theorem inPair_joinRef (hne : leftAlias ≠ rightAlias) (c : JoinColumn) :
    R.inPair columns leftAlias rightAlias p (joinRef leftAlias rightAlias c) =
      (if c.fromLeft then p.1 else p.2).getD R.blank c.input := by
  unfold joinRef
  by_cases hf : c.fromLeft = true
  · rw [if_pos hf, if_pos hf]
    exact inPair_left R columns p c.input
  · rw [if_neg hf, if_neg hf]
    exact inPair_right R columns p hne c.input

end Pair

theorem Renders.of_thetaJoin {predicate : Expr} {suffixes : Suffixes} {collisions : List Text}
    (hc : ThetaChecks left.schema right.schema predicate suffixes collisions)
    (hl : Renders.{u} limit left leftQuery) (hr : Renders.{u} limit right rightQuery)
    (hne : leftAlias ≠ rightAlias) {columns : List JoinColumn}
    (hcolumns : columns = joinColumns left.schema right.schema collisions suffixes) :
    Renders.{u} limit (.thetaJoin left right predicate type suffixes collisions)
      (.join (columns.map (joinItem leftAlias rightAlias)) type leftQuery leftAlias rightQuery
        rightAlias (.predicate (resolved (resolveJoin leftAlias rightAlias columns) predicate))) where
  output := by
    rw [Query.output, output_items (output_joinItem leftAlias rightAlias), hcolumns]
    rfl
  rows R hR db := by
    have hrow : ∀ pairs, R.itemRow (R.inPair leftQuery.output leftAlias rightAlias) pairs
        (columns.map (joinItem leftAlias rightAlias)) = fun _ p => R.thetaRow columns p := by
      intro pairs
      funext i p name
      rw [Reading.itemRow, Engine.thetaRow, find?_items (output_joinItem leftAlias rightAlias)]
      cases columns.find? fun c => c.output == name with
      | none => rfl
      | some c => exact inPair_joinRef R leftQuery.output p hne c
    have hon : ∀ l r, R.meets (R.inPair leftQuery.output leftAlias rightAlias (some l, some r))
        leftAlias rightAlias
        (.predicate (resolved (resolveJoin leftAlias rightAlias columns) predicate)) =
          R.meaning.passes predicate (R.thetaRow columns (some l, some r)) := by
      intro l r
      refine R.holds_resolved fun name hn => ?_
      -- the names of joined columns are distinct, so a name is resolved to the column it came from
      have hname := hc.reads name hn
      rw [← hcolumns] at hname
      obtain ⟨c, hmem, rfl⟩ := List.mem_map.mp hname
      have hnd := hc.named.nodup
      rw [← hcolumns] at hnd
      rw [resolveJoin, Engine.thetaRow, find?_key_eq_some hnd hmem]
      exact inPair_joinRef R leftQuery.output _ hne c
    rw [Query.rows]
    simp only [hrow, hon, mapIdx_eq_map, hl.rows R hR db, hr.rows R hR db]
    rw [hcolumns]
    rfl

theorem output_naturalItem (type : JoinType) (left shared : List Text) (leftAlias rightAlias : Nat)
    (name : Text) : (naturalItem type left shared leftAlias rightAlias name).output = name := by
  unfold naturalItem
  split
  · cases type with
    | inner => rfl
    | left => rfl
    | right => rfl
    | full => rfl
  · by_cases hl : left.contains name = true
    · simp only [if_pos hl]
      rfl
    · simp only [if_neg hl]
      rfl

section Columns

variable {V : Type u} [DecidableEq V] {R : Reading V}
  {leftColumns rightColumns shared columns : List Text}
  {pairs : List (Option (Row V) × Option (Row V))} {p : Option (Row V) × Option (Row V)} {name : Text}

/-- A shared column has the value of the side that has the row. Partners have it on both sides, because
keys that count as equal are the same. -/
theorem value_naturalItem_shared (hR : R.Exact) (hne : leftAlias ≠ rightAlias)
    {leftRows rightRows : List (Row V)}
    (hp : p ∈ joinPairs type (R.keysAgree shared) leftRows rightRows) (hs : name ∈ shared)
    (hl : name ∈ leftColumns) (hr : name ∈ rightColumns) (i : Nat) :
    R.value (R.inPair columns leftAlias rightAlias) pairs i p
        (naturalItem type leftColumns shared leftAlias rightAlias name).value =
      R.naturalRow leftColumns rightColumns p name := by
  have hleft : R.inPair columns leftAlias rightAlias p (.through leftAlias name) =
      p.1.getD R.blank name := inPair_left R columns p name
  have hright := inPair_right R columns p hne name
  have hkey : shared.contains name = true := by simpa using hs
  unfold naturalItem Engine.naturalRow
  simp only [hkey, if_true, hl, hr, true_and]
  rcases mem_joinPairs hp with ⟨l, r, rfl, hon⟩ | ⟨l, rfl, hkeeps⟩ | ⟨r, rfl, hkeeps⟩
  · -- partners agree on the key, so either side will do
    have hsame : l name = r name := hR _ _ (List.all_eq_true.mp hon name hs)
    cases type with
    | inner => exact hleft
    | left => exact hleft
    | right => exact hright.trans hsame.symm
    | full =>
      simp only [Reading.value, hleft, hright, Option.getD_some, Option.isSome_some, if_true]
      split
      · exact hsame.symm
      · rfl
  · -- a left row without partner is only kept by joins that take the key from the left first
    cases type with
    | inner => cases hkeeps
    | left => exact hleft
    | right => cases hkeeps
    | full =>
      simp only [Reading.value, hleft, hright, Option.getD_some, Option.getD_none,
        Option.isSome_some, if_true]
      split
      · rename_i hnull
        exact hnull.symm
      · rfl
  · cases type with
    | inner => cases hkeeps
    | left => cases hkeeps
    | right => exact hright
    | full =>
      simp only [Reading.value, hleft, hright, Option.getD_none]
      -- the left side is blank
      exact if_pos rfl

/-- Every other column comes from the one side that has it. -/
theorem value_naturalItem_own (hne : leftAlias ≠ rightAlias) (hs : name ∉ shared)
    (hshared : shared = sharedColumns leftColumns rightColumns)
    (hn : name ∈ naturalColumns leftColumns rightColumns) (i : Nat) :
    R.value (R.inPair columns leftAlias rightAlias) pairs i p
        (naturalItem type leftColumns shared leftAlias rightAlias name).value =
      R.naturalRow leftColumns rightColumns p name := by
  have hkey : shared.contains name = false := by simpa using hs
  rw [hshared, mem_sharedColumns] at hs
  unfold naturalItem Engine.naturalRow
  simp only [hkey, Bool.false_eq_true, if_false]
  rcases mem_naturalColumns.mp hn with hin | hin
  · -- not a shared column, so exactly one side has it
    have hout : name ∉ rightColumns := fun hr => hs ⟨hin, hr⟩
    have hcontains : leftColumns.contains name = true := by simpa using hin
    simp only [hcontains, if_true, Reading.value, inPair_left, hin, hout, true_and, if_false]
    cases p.1 with
    | none => rfl
    | some l => rfl
  · have hout : name ∉ leftColumns := fun hl => hs ⟨hl, hin⟩
    have hcontains : leftColumns.contains name = false := by simpa using hout
    simp only [hcontains, Bool.false_eq_true, if_false, Reading.value,
      inPair_right R columns p hne, hin, hout, false_and, if_true]

end Columns

theorem Renders.of_naturalJoin (hl : Renders.{u} limit left leftQuery)
    (hr : Renders.{u} limit right rightQuery) (hne : leftAlias ≠ rightAlias) {shared : List Text}
    (hshared : shared = sharedColumns left.schema right.schema) :
    Renders.{u} limit (.naturalJoin left right type)
      (.join ((naturalColumns left.schema right.schema).map
          (naturalItem type left.schema shared leftAlias rightAlias))
        type leftQuery leftAlias rightQuery rightAlias (.keys shared)) where
  output := output_columns (output_naturalItem type left.schema shared leftAlias rightAlias) _
  rows R hR db := by
    have hon : ∀ l r, R.meets (R.inPair leftQuery.output leftAlias rightAlias (some l, some r))
        leftAlias rightAlias (.keys shared) = R.keysAgree shared l r := by
      intro l r
      simp only [Reading.meets, inPair_left, inPair_right _ _ _ hne]
      rfl
    rw [Query.rows]
    simp only [hon, hl.rows R hR db, hr.rows R hR db]
    rw [Tree.rows, ← mapIdx_eq_map (R.meaning.naturalRow left.schema right.schema), ← hshared]
    refine List.mapIdx_eq_mapIdx_iff.mpr fun i hi => ?_
    rw [R.itemRow_map _ _ _ (output_naturalItem type left.schema shared leftAlias rightAlias)]
    funext name
    by_cases hn : name ∈ naturalColumns left.schema right.schema
    · rw [R.restrict_of_mem hn]
      -- a shared column may come from either side, any other from the one that has it
      by_cases hs : name ∈ shared
      · obtain ⟨hl, hr⟩ := mem_sharedColumns.mp (hshared ▸ hs)
        exact value_naturalItem_shared hR hne (List.getElem_mem hi) hs hl hr i
      · exact value_naturalItem_own hne hs hshared hn i
    · rw [R.restrict_of_not_mem hn]
      exact (Engine.fits_naturalRow left.schema right.schema _ name hn).symm

end Join

end Query

/-! ## Stages of rows -/

section Rows

variable {V : Type u} (M : Meaning V) (partitionBy : List Text) (order : List OrderTerm)

/-- Lists of rows as a state that assignments run on. A value is one for each place, and the columns of
the window are pinned. -/
def rowStore : Store (List (Row V)) (Nat → V) where
  value e rows := M.valueAt partitionBy order e rows
  write x v rows := rows.mapIdx fun i r => Function.update r x (v i)
  pinned := windowColumns partitionBy order
  write_comm v w rows hne := by
    rw [List.mapIdx_mapIdx, List.mapIdx_mapIdx]
    refine congrArg (rows.mapIdx ·) (funext fun i => funext fun r => ?_)
    rw [Function.comp_apply, Function.comp_apply]
    exact Function.update_comm hne.symm (w i) (v i) r
  value_write {e x} v rows hx hp := by
    have hagree : Agree (e.columns ++ windowColumns partitionBy order)
        (rows.mapIdx fun i r => Function.update r x (v i)) rows :=
      (agree_refl _ rows).write_left v fun hm => (List.mem_append.mp hm).elim hx hp
    exact funext fun i => M.valueAt_congr hagree i

/-- A stage computes its targets from the rows below and copies the rest. -/
theorem stage_eq_mapIdx {stage : List Assignment} (hnd : (stage.map Assignment.target).Nodup)
    (rows : List (Row V)) :
    (rowStore M partitionBy order).stage rows stage =
      rows.mapIdx fun i r name =>
        match stage.find? fun a => a.target == name with
        | some a => M.valueAt partitionBy order a.expr rows i
        | none => r name := by
  -- every value is read from the rows before the stage, so the writes commute with the index
  have hfold : ∀ (as : List Assignment) (later : List (Row V)),
      as.foldl (fun later a => (rowStore M partitionBy order).write a.target
          ((rowStore M partitionBy order).value a.expr rows) later) later =
        later.mapIdx fun i r => as.foldl
          (fun r a => Function.update r a.target (M.valueAt partitionBy order a.expr rows i)) r := by
    intro as
    induction as with
    | nil => exact fun later => ((mapIdx_eq_map id later).trans (List.map_id later)).symm
    | cons a rest ih =>
      intro later
      rw [List.foldl_cons, ih]
      exact List.mapIdx_mapIdx
  rw [Store.stage, hfold]
  refine congrArg (rows.mapIdx ·) (funext fun i => funext fun r => funext fun name => ?_)
  exact foldl_update_eq hnd (fun a => M.valueAt partitionBy order a.expr rows i) r name

end Rows

/-- The item of a column in the SELECT of a stage. -/
def stageItem (window : Option Window) (stage : List Assignment) (name : Text) : Item :=
  match stage.find? fun a => a.target == name with
  | some a => ⟨.computed (resolved .bare a.expr) window, some name⟩
  | none => Item.plain name

section Stages

variable {stage : List Assignment} {columns : List Text}

theorem output_stageItem (window : Option Window) (stage : List Assignment) (name : Text) :
    (stageItem window stage name).output = name := by
  unfold stageItem
  split
  · rfl
  · rfl

/-- The SELECT of a stage runs the stage, if it carries all columns there are. -/
theorem rows_stage {V : Type u} [DecidableEq V] (R : Reading V) (db : Database V) {q : Query}
    (partitionBy : List Text) (order : List OrderTerm) (scope : Nat)
    (hnd : (stage.map Assignment.target).Nodup)
    (hcolumns : ∀ name ∈ q.output, name ∈ columns)
    (htargets : ∀ name ∈ stage.map Assignment.target, name ∈ columns) :
    (Query.select (columns.map (stageItem (windowOf partitionBy order) stage)) q scope
        .empty).rows R db =
      (rowStore R.meaning partitionBy order).stage (q.rows R db) stage := by
  have hplain : ∀ item ∈ columns.map (stageItem (windowOf partitionBy order) stage),
      item.value.isAggregate = false := by
    intro item hi
    obtain ⟨name, -, rfl⟩ := List.mem_map.mp hi
    unfold stageItem
    split
    · rfl
    · rfl
  rw [Query.rows_select R hplain, stage_eq_mapIdx R.meaning partitionBy order hnd]
  refine List.mapIdx_eq_mapIdx_iff.mpr fun i hi => ?_
  have hget : (q.rows R db).getD i R.blank = (q.rows R db)[i] := List.getD_eq_getElem _ _ hi
  rw [R.itemRow_map _ _ columns (output_stageItem (windowOf partitionBy order) stage)]
  funext name
  by_cases hn : name ∈ columns
  · rw [R.restrict_of_mem hn]
    unfold stageItem
    split
    · exact R.value_computed scope _ hget partitionBy order _
    · rfl
  · -- a column that the SELECT does not carry is no column of the rows below
    have hout : name ∉ stage.map Assignment.target := fun ht => hn (htargets name ht)
    rw [R.restrict_of_not_mem hn, find?_key_eq_none hout]
    exact (Query.fits_rows R db q _ (List.getElem_mem hi) name fun h => hn (hcolumns name h)).symm

end Stages

end SqlPipeline.Sql
