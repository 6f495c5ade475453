import SqlPipeline.Proofs.Agreement
import SqlPipeline.Sql.Plan

/-!
# What a query means

The rows that a nested SELECT gives, clause by clause: the FROM clause gives rows,
or pairs of rows for a join; WHERE drops some; GROUP BY, or an aggregate in the
select list, makes one row of each group; the select list computes the columns;
ORDER BY sorts, where a name means a column of the result if there is one of that
name and a column of the input otherwise; LIMIT cuts.

A `Reading` says what the texts of expressions, windows and aggregates amount to. It
sees a text with a gap for each column that the text refers to, and the values that
stand in the gaps, so it cannot look at other columns and does not care by which
alias a column is reached. A reading gives a `Meaning` of expressions too, and that
is how a query and a tree are compared.
-/

namespace SqlPipeline.Sql

universe u

/-! ## Readings -/

/-- One piece of a text, where a column is only a gap. -/
inductive Mark where
  | gap
  | literal (value : Literal)
  | text (value : Text)
  | input

/-- A piece of an expression without the name of its column. -/
def Mark.ofPiece : Piece → Mark
  | .var _ => gap
  | .const value => literal value
  | .text value => text value
  | .input => input

/-- A piece of a term without the name of its column. -/
def Mark.ofPart : Part → Mark
  | .ref _ => gap
  | .literal value => literal value
  | .text value => text value
  | .input => input

/-- What a window knows of a row: the values in the gaps of its expression, and those it is cut and
ordered by. -/
structure WindowRow (V : Type u) where
  values : List V
  partitionKey : List V
  orderKey : List V

/-- An engine, and what texts amount to in it, given the values in their gaps. -/
structure Reading (V : Type u) extends Engine V where
  scalar : List Mark → List V → V
  /-- A text over a window, at a place among the rows; an ordering comes with its directions. -/
  window : List Mark → (descending : List Bool) → List (WindowRow V) → Nat → V
  aggregate : List Mark → List (List V) → V
  /-- A template around the rows of a subquery. -/
  template : Term → List (Row V) → List (Row V)

/-- The columns that an expression names, at each place where it names one. -/
def gapsOf (e : Expr) : List Text := e.pieces.filterMap Piece.column?

namespace Reading

variable {V : Type u} (R : Reading V)

/-- What expressions amount to, by what their texts amount to. -/
def meaning : Meaning V where
  toEngine := R.toEngine
  scalar e r := R.scalar (e.pieces.map Mark.ofPiece) ((gapsOf e).map r)
  window partitionBy orderBy e rows i :=
    R.window (e.pieces.map Mark.ofPiece) (orderBy.map OrderTerm.descending)
      (rows.map fun r =>
        ⟨(gapsOf e).map r, partitionBy.map r, orderBy.map fun t => r t.column⟩) i
  aggregate e rows := R.aggregate (e.pieces.map Mark.ofPiece) (rows.map fun r => (gapsOf e).map r)

/-! ## References -/

/-- The value of a reference in a row of the only relation of a FROM clause. -/
def inRow (scope : Nat) (r : Row V) : Ref → V
  | .bare name => r name
  | .through s name => if s = scope then r name else R.null

/-- The value of a reference in a pair of rows. A bare name belongs to the left side if the left side
has it. -/
def inPair (left : List Text) (leftAlias rightAlias : Nat) (p : Option (Row V) × Option (Row V)) :
    Ref → V
  | .bare name => (if name ∈ left then p.1 else p.2).getD R.blank name
  | .through s name =>
    if s = leftAlias then p.1.getD R.blank name
    else if s = rightAlias then p.2.getD R.blank name
    else R.null

/-- The value of a term, where `read` gives the values of its references. -/
def term (t : Term) (read : Ref → V) : V := R.scalar (t.map Mark.ofPart) (t.refs.map read)

/-! ## Select lists -/

section Items

variable [DecidableEq V] {α : Type u} (read : α → Ref → V) (rows : List α)

/-- The value of an item at a place among rows, which are those of the group if there are groups. -/
def value (i : Nat) (a : α) : Value → V
  | .column r => read a r
  | .computed t none => R.term t (read a)
  | .computed t (some w) =>
    R.window (t.map Mark.ofPart) (w.orderBy.map OrderTerm.descending)
      (rows.map fun b =>
        ⟨t.refs.map (read b), w.partitionBy.map fun name => read b (.bare name),
          w.orderBy.map fun o => read b (.bare o.column)⟩) i
  | .aggregate t => R.aggregate (t.map Mark.ofPart) (rows.map fun b => t.refs.map (read b))
  | .coalesce l r => if read a l = R.null then read a r else read a l

/-- The row that a select list makes. -/
def itemRow (items : List Item) (i : Nat) (a : α) : Row V :=
  fun name =>
    match items.find? fun item => item.output == name with
    | some item => R.value read rows i a item.value
    | none => R.null

end Items

/-! ## Clauses -/

end Reading

/-- Whether the value is one of a group. -/
def Value.isAggregate : Value → Bool
  | aggregate _ => true
  | _ => false

namespace Reading

variable {V : Type u} (R : Reading V)

/-- The rows that pass a WHERE clause. -/
def filtered (scope : Nat) (filter : Option Term) (rows : List (Row V)) : List (Row V) :=
  match filter with
  | some t => rows.filter fun r => R.holds (R.term t (R.inRow scope r))
  | none => rows

/-- Each row of a result with the input row it comes from, the first one if it comes from a group. -/
def selected [DecidableEq V] (items : List Item) (scope : Nat) (groupBy : List Text)
    (rows : List (Row V)) : List (Row V × Row V) :=
  if !groupBy.isEmpty || items.any fun item => item.value.isAggregate then
    (groups groupBy rows).map fun group =>
      (group.head?.getD R.blank,
        R.itemRow (R.inRow scope) group items 0 (group.head?.getD R.blank))
  else rows.mapIdx fun i r => (r, R.itemRow (R.inRow scope) rows items i r)

/-- What an ORDER BY clause sees of a row of the result and the input row it comes from. -/
def sortRow (columns : List Text) (p : Row V × Row V) : Row V :=
  fun name => if name ∈ columns then p.2 name else p.1 name

/-- The rows of a result in order. -/
def ordered (columns : List Text) (orderBy : List OrderTerm) (rows : List (Row V × Row V)) :
    List (Row V) :=
  (rows.mergeSort fun a b =>
    R.rowPrecedes orderBy (sortRow columns a) (sortRow columns b)).map Prod.snd

/-- Whether a pair of rows meets the condition of a join. -/
def meets (read : Ref → V) (leftAlias rightAlias : Nat) : Condition → Bool
  | .keys names =>
    names.all fun name =>
      R.equal (read (.through leftAlias name)) (read (.through rightAlias name))
  | .predicate t => R.holds (R.term t read)

end Reading

/-- **The rows of a query** on a database. -/
def Query.rows {V : Type u} [DecidableEq V] (R : Reading V) (db : Database V) : Query → List (Row V)
  | read columns qualifier table limit =>
    firstRows limit ((db qualifier table).map (R.restrict columns))
  | select items source scope clauses =>
    let input := R.filtered scope clauses.filter (source.rows R db)
    firstRows clauses.limit
      (R.ordered (items.map Item.output) clauses.orderBy
        (R.selected items scope clauses.groupBy input))
  | join items type left leftAlias right rightAlias on =>
    let read := R.inPair left.output leftAlias rightAlias
    let pairs :=
      joinPairs type (fun l r => R.meets (read (some l, some r)) leftAlias rightAlias on)
        (left.rows R db) (right.rows R db)
    pairs.mapIdx (R.itemRow read pairs items)
  | template columns body source _ => (R.template body (source.rows R db)).map (R.restrict columns)

/-! ## Columns of a result -/

theorem Reading.fits_itemRow {V : Type u} [DecidableEq V] (R : Reading V) {α : Type u}
    (read : α → Ref → V) (rows : List α) (items : List Item) (i : Nat) (a : α) :
    R.Fits (items.map Item.output) (R.itemRow read rows items i a) := by
  intro name hn
  rw [itemRow, find?_key_eq_none hn]

/-- **The rows of a query have the query's columns** and no others. -/
theorem Query.fits_rows {V : Type u} [DecidableEq V] (R : Reading V) (db : Database V) (q : Query) :
    ∀ r ∈ q.rows R db, R.Fits q.output r := by
  intro r hr
  cases q with
  | read columns qualifier table limit =>
    obtain ⟨b, -, rfl⟩ := List.mem_map.mp (mem_of_mem_firstRows hr)
    exact Engine.fits_restrict columns b
  | select items source scope clauses =>
    obtain ⟨p, hp, rfl⟩ := List.mem_map.mp (mem_of_mem_firstRows hr)
    -- grouped or not, what comes out is a row of the items
    rw [List.mem_mergeSort, Reading.selected] at hp
    split at hp
    · obtain ⟨group, -, rfl⟩ := List.mem_map.mp hp
      exact R.fits_itemRow _ _ items _ _
    · obtain ⟨i, hi, rfl⟩ := List.mem_mapIdx.mp hp
      exact R.fits_itemRow _ _ items _ _
  | join items type left leftAlias right rightAlias on =>
    obtain ⟨i, hi, rfl⟩ := List.mem_mapIdx.mp hr
    exact R.fits_itemRow _ _ items _ _
  | template columns body source scope =>
    obtain ⟨b, -, rfl⟩ := List.mem_map.mp hr
    exact Engine.fits_restrict columns b

/-! ## Select lists of a usual shape -/

section Select

variable {V : Type u} (R : Reading V)

section Keys

variable {α : Type} {sources : List α} {f : α → Item} {key : α → Text}

/-- The columns of a select list that makes an item from each source. -/
theorem output_items (hf : ∀ a, (f a).output = key a) :
    (sources.map f).map Item.output = sources.map key := by
  rw [List.map_map]
  exact List.map_congr_left fun a _ => hf a

/-- The item of a column is made from the source that the column is named after. -/
theorem find?_items (hf : ∀ a, (f a).output = key a) (name : Text) :
    (sources.map f).find? (fun item => item.output == name) =
      (sources.find? fun a => key a == name).map f := by
  have hkey : (fun item : Item => item.output == name) ∘ f = fun a => key a == name :=
    funext fun a => congrArg (· == name) (hf a)
  rw [List.find?_map, hkey]

end Keys

theorem output_plain (name : Text) : (Item.plain name).output = name := rfl

theorem output_columns {f : Text → Item} (hf : ∀ name, (f name).output = name)
    (columns : List Text) : (columns.map f).map Item.output = columns := by
  rw [output_items hf, List.map_id']

theorem find?_name (columns : List Text) (name : Text) :
    columns.find? (fun other => other == name) = if name ∈ columns then some name else none := by
  by_cases hn : name ∈ columns
  · rw [if_pos hn]
    cases hfind : columns.find? fun other => other == name with
    | none => exact absurd (beq_self_eq_true name) (List.find?_eq_none.mp hfind name hn)
    | some found =>
      have hname := List.find?_some hfind
      rw [beq_iff_eq] at hname
      rw [hname]
  · rw [if_neg hn, List.find?_eq_none]
    exact fun other ho he => hn (beq_iff_eq.mp he ▸ ho)

section Items

variable [DecidableEq V] {α : Type u} (read : α → Ref → V) (rows : List α)

/-- A select list that has an item for each of the columns computes them and nothing else. -/
theorem Reading.itemRow_map (columns : List Text) {f : Text → Item}
    (hf : ∀ name, (f name).output = name) (i : Nat) (a : α) :
    R.itemRow read rows (columns.map f) i a =
      R.restrict columns fun name => R.value read rows i a (f name).value := by
  funext name
  rw [itemRow, find?_items hf, find?_name]
  by_cases hn : name ∈ columns
  · rw [if_pos hn, R.restrict_of_mem hn]
    rfl
  · rw [if_neg hn, R.restrict_of_not_mem hn]
    rfl

end Items

theorem Reading.ordered_nil (columns : List Text) (rows : List (Row V × Row V)) :
    R.ordered columns [] rows = rows.map Prod.snd := by
  have hsorted : rows.mergeSort
      (fun a b => R.rowPrecedes [] (sortRow columns a) (sortRow columns b)) = rows :=
    List.mergeSort_of_pairwise (List.pairwise_of_forall fun _ _ => rfl)
  rw [ordered, hsorted]

/-- Where the result has only columns of the input, sorting it sorts the input. -/
theorem Reading.ordered_restrict (columns : List Text) (terms : List OrderTerm)
    (rows : List (Row V)) :
    R.ordered columns terms (rows.map fun r => (r, R.restrict columns r)) =
      (rows.mergeSort (R.rowPrecedes terms)).map (R.restrict columns) := by
  -- sorting may look at the columns that are not selected: a source row is seen whole
  have hsee : ∀ r : Row V, sortRow columns (r, R.restrict columns r) = r := by
    intro r
    funext name
    by_cases hn : name ∈ columns
    · rw [sortRow, if_pos hn]
      exact R.restrict_of_mem hn r
    · rw [sortRow, if_neg hn]
  have hsort : (rows.map fun r => (r, R.restrict columns r)).mergeSort
      (fun a b => R.rowPrecedes terms (sortRow columns a) (sortRow columns b)) =
        (rows.mergeSort (R.rowPrecedes terms)).map fun r => (r, R.restrict columns r) := by
    refine (List.map_mergeSort fun a _ b _ => ?_).symm
    rw [hsee, hsee]
  rw [ordered, hsort, List.map_map]
  rfl

variable [DecidableEq V]

theorem Reading.selected_ungrouped {items : List Item}
    (h : ∀ item ∈ items, item.value.isAggregate = false) (scope : Nat) (rows : List (Row V)) :
    R.selected items scope [] rows =
      rows.mapIdx fun i r => (r, R.itemRow (R.inRow scope) rows items i r) := by
  have hany : items.any (fun item => item.value.isAggregate) = false := by
    rw [List.any_eq_false]
    intro item hi
    rw [h item hi]
    exact Bool.false_ne_true
  rw [selected, hany]
  rfl

/-- A select list without aggregates and without clauses. -/
theorem Query.rows_select {items : List Item}
    (h : ∀ item ∈ items, item.value.isAggregate = false) (q : Query) (scope : Nat)
    (db : Database V) :
    (select items q scope .empty).rows R db =
      (q.rows R db).mapIdx (R.itemRow (R.inRow scope) (q.rows R db) items) := by
  simp only [rows, Clauses.empty, Reading.filtered, firstRows, R.ordered_nil,
    R.selected_ungrouped h, map_mapIdx]

/-- A select list of columns of the input. -/
theorem Query.rows_select_plain (columns : List Text) (q : Query) (scope : Nat)
    (filter : Option Term) (terms : List OrderTerm) (limit : Option Nat) (db : Database V) :
    (select (columns.map Item.plain) q scope ⟨filter, [], terms, limit⟩).rows R db =
      (firstRows limit
        ((R.filtered scope filter (q.rows R db)).mergeSort (R.rowPrecedes terms))).map
          (R.restrict columns) := by
  -- items that only name a column never group
  have hplain : ∀ item ∈ columns.map Item.plain, item.value.isAggregate = false := by
    intro item hi
    obtain ⟨name, -, rfl⟩ := List.mem_map.mp hi
    rfl
  have houtput : (columns.map Item.plain).map Item.output = columns :=
    output_columns output_plain columns
  have hrow : ∀ (rows : List (Row V)) i r,
      R.itemRow (R.inRow scope) rows (columns.map Item.plain) i r = R.restrict columns r :=
    fun rows i r => R.itemRow_map _ rows columns output_plain i r
  simp only [rows, R.selected_ungrouped hplain, hrow, houtput, mapIdx_eq_map,
    R.ordered_restrict, map_firstRows]

end Select

end SqlPipeline.Sql
