import SqlPipeline.Tree

/-!
# Queries

The nested SELECTs that statements are made of, as data. A query reads a table,
selects from one query under an alias, joins two of them, or fills a template. All
names are resolved: a reference says which alias it goes through, or that it needs
none because the FROM clause holds a single relation.

`Query.output` is the list of columns that a query names in its select list.
-/

namespace SqlPipeline.Sql

/-- A column of what stands in the FROM clause. -/
inductive Ref where
  | bare (name : Text)
  | through (scope : Nat) (name : Text)
  deriving Repr, DecidableEq

/-- The name of the column. -/
def Ref.name : Ref → Text
  | bare name | through _ name => name

/-- One piece of an expression whose columns are resolved. -/
inductive Part where
  | ref (r : Ref)
  | literal (value : Literal)
  | text (value : Text)
  /-- The subquery of a template. -/
  | input
  deriving Repr, BEq

/-- An expression whose columns are resolved. -/
abbrev Term := List Part

/-- The columns that a term refers to. -/
def Term.refs (t : Term) : List Ref :=
  t.filterMap fun
    | .ref r => some r
    | _ => none

/-- How the rows around a row are cut and ordered. -/
structure Window where
  partitionBy : List Text
  orderBy : List OrderTerm
  deriving Repr, DecidableEq

/-- The value of an item of a select list. -/
inductive Value where
  | column (r : Ref)
  | computed (term : Term) (window : Option Window)
  /-- One value for all the rows of a group. -/
  | aggregate (term : Term)
  /-- The column of the first alias, or of the second where it is absent. -/
  | coalesce (left right : Ref)
  deriving Repr, BEq

/-- An item of a select list, under a name of its own if it has one. -/
structure Item where
  value : Value
  label : Option Text
  deriving Repr, BEq

/-- A column of the one relation in the FROM clause. -/
def Item.plain (name : Text) : Item := ⟨.column (.bare name), none⟩

/-- The name of the item in the result. -/
def Item.output (i : Item) : Text :=
  match i.label, i.value with
  | some name, _ => name
  | none, .column r => r.name
  | none, .coalesce l _ => l.name
  | none, .computed .. | none, .aggregate _ => []

/-- The clauses after FROM. -/
structure Clauses where
  filter : Option Term
  groupBy : List Text
  orderBy : List OrderTerm
  limit : Option Nat
  deriving Repr, BEq

/-- No clause. -/
def Clauses.empty : Clauses := ⟨.none, [], [], .none⟩

/-- On what two queries are joined. -/
inductive Condition where
  /-- Both sides agree on these columns. -/
  | keys (names : List Text)
  | predicate (term : Term)
  deriving Repr, BEq

/-- A nested SELECT. -/
inductive Query where
  /-- Columns of a table, of at most so many rows. -/
  | read (columns : List Text) (qualifier : Option Text) (table : Text) (limit : Option Nat)
  | select (items : List Item) (source : Query) (scope : Nat) (clauses : Clauses)
  | join (items : List Item) (type : JoinType) (left : Query) (leftAlias : Nat) (right : Query)
      (rightAlias : Nat) (on : Condition)
  /-- A text around a subquery, which puts out the columns that it is said to. -/
  | template (columns : List Text) (body : Term) (source : Query) (scope : Nat)
  deriving Repr

namespace Query

/-- The columns that a query puts out, in order. -/
def output : Query → List Text
  | read columns .. => columns
  | select items .. | join items .. => items.map Item.output
  | template columns .. => columns

/-- The aliases of the subqueries of a query, inner ones first. -/
def aliases : Query → List Nat
  | read .. => []
  | select _ source scope _ | template _ _ source scope => source.aliases ++ [scope]
  | join _ _ left leftAlias right rightAlias _ =>
    left.aliases ++ [leftAlias] ++ right.aliases ++ [rightAlias]

end Query

end SqlPipeline.Sql
