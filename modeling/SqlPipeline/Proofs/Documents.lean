import Mathlib.Data.List.Forall2
import SqlPipeline.Pipeline.Load
import SqlPipeline.Proofs.Anonymity
import SqlPipeline.Proofs.ExactDecimals

/-!
# Documents and the programs that they write down

A program names a table and then one operator after the other, each with its fields as
the user gives them: expressions are text still, and what may be left out is an option.
`Program.build` is what the program means. It builds the steps in order, for a join the right side
first, reads the texts of a step, fills in the defaults and hands the result to the
function for the operator.

`Program.Written` says which documents write a program down. A field that is left out is
absent, a pair of names stands in the order new before old, a term of an ordering is a
name or an object, a join may be spelled in any case, and fields that no operator knows
are allowed. A probability is a double, and it is written by any number that it is the
nearest double to. Every program whose probabilities are finite is written by at least
one document (`Program.written_document`). A NaN is read from no number, so a program
that gives one has no document.

Loading a document gives what the program that it writes means. The only difference is in
the tags of transforms: a document names none, and loading takes the place of the step.
`Program.placed` is the program with these tags, and it builds exactly the tree that is
loaded. Any other choice of tags builds the same tree up to them.
-/

namespace SqlPipeline

/-! ## Programs -/

/-- A column and the text of the expression for it. -/
structure Formula where
  target : Text
  text : Text
  deriving Repr, DecidableEq

/-- A column to sort by, which sorts upwards unless it says otherwise. -/
structure SortKey where
  column : Text
  descending : Option Bool
  deriving Repr, DecidableEq

/-- The term of an ordering that a key stands for. -/
def SortKey.term (k : SortKey) : OrderTerm := ⟨k.column, k.descending.getD false⟩

/-- A step with one input. A quantile step also says which transform it makes, by its tag. -/
inductive Operation where
  | extend (assignments : Option (List Formula)) (partitionBy : Option (List Text))
      (keys : Option (List SortKey))
  | project (groupBy : Option (List Text)) (aggregates : Option (List Formula))
  | selectRows (predicate : Text)
  | selectColumns (columns : List Text)
  | renameColumns (mapping : List Rename)
  | orderBy (keys : Option (List SortKey)) (limit : Option UInt64)
  | rawStatement (template : Text) (produced : List Text) (used : Option (List Text))
  | quantile (tag : Text) (columns : Option (List Text)) (probs : Option (List Binary64))
      (probsName : Option Text) (temporary : Option Bool)
  deriving Repr

/-- A step with two inputs. -/
inductive Joining where
  | natural (type : Option JoinType)
  | theta (predicate : Text) (type : Option JoinType) (suffixes : Option Suffixes)
  deriving Repr, DecidableEq

/-- A table and the steps after it. -/
inductive Program where
  | table (name : Text) (columns : List Text) (qualifier : Option Text)
  | step (before : Program) (operation : Operation)
  | join (before right : Program) (joining : Joining)
  deriving Repr

/-- Reads the expressions of formulas, in order. -/
def Formula.readAll : List Formula → Except Error (List Assignment)
  | [] => .ok []
  | f :: rest => do
    let expr ← Pipeline.readExpr f.text false
    let assignments ← readAll rest
    return ⟨f.target, expr⟩ :: assignments

/-- Builds a step on top of a tree. -/
def Operation.build (digest : Text → Text) (source : Tree) : Operation → Except Error Tree
  | extend assignments partitionBy keys => do
    let assignments ← Formula.readAll (assignments.getD [])
    Pipeline.extend source assignments (partitionBy.getD []) ((keys.getD []).map SortKey.term)
  | project groupBy aggregates => do
    let aggregates ← Formula.readAll (aggregates.getD [])
    Pipeline.project source (groupBy.getD []) aggregates
  | selectRows predicate => do
    let predicate ← Pipeline.readExpr predicate false
    Pipeline.selectRows source predicate
  | selectColumns columns => Pipeline.selectColumns source columns
  | renameColumns mapping => Pipeline.renameColumns source mapping
  | orderBy keys limit =>
    Pipeline.orderBy source ((keys.getD []).map SortKey.term) (limit.map UInt64.toNat)
  | rawStatement template produced used => do
    let template ← Pipeline.readExpr template true
    Pipeline.rawStatement source (used.getD []) produced template
  | quantile tag columns probs probsName temporary =>
    let spec := Quantile.defaultSpec
    Pipeline.quantile digest tag source
      { spec with
        columns := columns.getD spec.columns
        probs := probs.getD spec.probs
        probsName := probsName.getD spec.probsName
        temporary := temporary.getD spec.temporary }

/-- Builds a join on top of its two trees. -/
def Joining.build (left right : Tree) : Joining → Except Error Tree
  | natural type => Pipeline.naturalJoin left right (type.getD .inner)
  | theta predicate type suffixes => do
    let predicate ← Pipeline.readExpr predicate false
    Pipeline.thetaJoin left right predicate (type.getD .inner) (suffixes.getD ⟨"_a", "_b"⟩)

/-- Builds the tree of a program. -/
def Program.build (digest : Text → Text) : Program → Except Error Tree
  | table name columns qualifier => Pipeline.table name columns qualifier
  | step before operation => do
    let source ← before.build digest
    operation.build digest source
  | join before right joining => do
    let left ← before.build digest
    let right ← right.build digest
    joining.build left right

/-! ## Tags -/

/-- The step with another tag. -/
def Operation.tagged (tag : Text) : Operation → Operation
  | quantile _ columns probs probsName temporary => quantile tag columns probs probsName temporary
  | operation => operation

namespace Program

/-- The number of steps, without those of right sides. -/
def length : Program → Nat
  | table .. => 1
  | step before _ | join before _ _ => before.length + 1

/-- The program with the place of each step as its tag. -/
def placed (path : Text) : Program → Program
  | table name columns qualifier => table name columns qualifier
  | step before operation =>
    step (before.placed path) (operation.tagged (Pipeline.stepPath path before.length))
  | join before right joining =>
    join (before.placed path) (right.placed (Pipeline.stepPath path before.length ++ ".right")) joining

/-- The program without its tags. -/
def untagged : Program → Program
  | table name columns qualifier => table name columns qualifier
  | step before operation => step before.untagged (operation.tagged [])
  | join before right joining => join before.untagged right.untagged joining

end Program

theorem Operation.tagged_tagged (tag tag' : Text) (operation : Operation) :
    (operation.tagged tag).tagged tag' = operation.tagged tag' := by
  cases operation with
  | _ => rfl

theorem Program.untagged_placed (p : Program) (path : Text) :
    (p.placed path).untagged = p.untagged := by
  induction p generalizing path with
  | table name columns qualifier => rfl
  | step before operation ih => simp only [placed, untagged, ih, Operation.tagged_tagged]
  | join before right joining ihb ihr => simp only [placed, untagged, ihb, ihr]

theorem Operation.map_anonymous_build (digest : Text → Text) (source : Tree) (operation : Operation) :
    Tree.anonymous <$> operation.build digest source =
      (operation.tagged []).build digest source.anonymous := by
  cases operation with
  | extend assignments partitionBy keys =>
    simp only [build, tagged, map_bind, Pipeline.map_anonymous_extend]
  | project groupBy aggregates => simp only [build, tagged, map_bind, Pipeline.map_anonymous_project]
  | selectRows predicate => simp only [build, tagged, map_bind, Pipeline.map_anonymous_selectRows]
  | selectColumns columns => exact Pipeline.map_anonymous_selectColumns source columns
  | renameColumns mapping => exact Pipeline.map_anonymous_renameColumns source mapping
  | orderBy keys limit => exact Pipeline.map_anonymous_orderBy source _ _
  | rawStatement template produced used =>
    simp only [build, tagged, map_bind, Pipeline.map_anonymous_rawStatement]
  | quantile tag columns probs probsName temporary =>
    exact Pipeline.map_anonymous_quantile source digest tag _

theorem Joining.map_anonymous_build (left right : Tree) (joining : Joining) :
    Tree.anonymous <$> joining.build left right = joining.build left.anonymous right.anonymous := by
  cases joining with
  | natural type => exact Pipeline.map_anonymous_naturalJoin left right _
  | theta predicate type suffixes => simp only [build, map_bind, Pipeline.map_anonymous_thetaJoin]

/-- What a program builds, up to tags, is what it builds without them. -/
theorem Program.map_anonymous_build (digest : Text → Text) (p : Program) :
    Tree.anonymous <$> p.build digest = p.untagged.build digest := by
  induction p with
  | table name columns qualifier => exact Pipeline.map_anonymous_table name columns qualifier
  | step before operation ih =>
    simp only [build, untagged, map_bind, Operation.map_anonymous_build, ← ih, bind_map_left]
  | join before right joining ihb ihr =>
    simp only [build, untagged, map_bind, Joining.map_anonymous_build, ← ihb, ← ihr, bind_map_left]

/-! ## What documents write -/

/-- A field spells a value in one of the ways to write it, and is not there if there is no value. -/
def Json.Spells {α : Type} (step : Json) (key : Text) (written : α → Json → Prop) : Option α → Prop
  | none => step.get? key = none
  | some a => ∃ value, step.get? key = some value ∧ written a value

/-- The target before the expression. -/
def Formula.pair (f : Formula) : Json := .ofTexts [f.target, f.text]

/-- The new name before the old one. -/
def Rename.pair (r : Rename) : Json := .ofTexts [r.new, r.old]

/-- A whole number without a sign. -/
def Json.ofNat (n : Nat) : Json := .number ⟨false, ⟨n, 0⟩, true⟩

/-- A key is written as a column that sorts upwards, or as an object. -/
inductive SortKey.Written : SortKey → Json → Prop where
  | column (column : Text) : Written ⟨column, none⟩ (.string column)
  | object {key : SortKey} {fields : List (Text × Json)} :
      Json.get? "column" (.object fields) = some (.string key.column) →
      Json.get? "desc" (.object fields) = key.descending.map .bool → Written key (.object fields)

/-- Values one after the other in an array. -/
def WrittenList {α : Type} (written : α → Json → Prop) (values : List α) (value : Json) : Prop :=
  ∃ items, value = .array items ∧ List.Forall₂ written values items

/-- A join is written in any case. -/
def JoinType.Written (type : JoinType) (value : Json) : Prop :=
  ∃ name, value = .string name ∧ Text.toUpper name = type.name

/-- A probability is written by any number to which it is the nearest double. -/
def WrittenProbability (p : Binary64) (value : Json) : Prop :=
  ∃ n : Json.Number, value = .number n ∧ n.toBinary64 = p

/-- The word for an operation. -/
def Operation.name : Operation → Text
  | extend .. => "extend"
  | project .. => "project"
  | selectRows _ => "select_rows"
  | selectColumns _ => "select_columns"
  | renameColumns _ => "rename_columns"
  | orderBy .. => "order_by"
  | rawStatement .. => "raw_statement"
  | quantile .. => "quantile"

/-- The fields of a step other than its operator. -/
def Operation.Fields (step : Json) : Operation → Prop
  | extend assignments partitionBy keys =>
    step.get? "assignments" = assignments.map (fun fs => .array (fs.map Formula.pair)) ∧
    step.get? "partition_by" = partitionBy.map .ofTexts ∧
    step.Spells "order_by" (WrittenList SortKey.Written) keys
  | project groupBy aggregates =>
    step.get? "group_by" = groupBy.map .ofTexts ∧
    step.get? "aggregates" = aggregates.map (fun fs => .array (fs.map Formula.pair))
  | selectRows predicate => step.get? "predicate" = some (.string predicate)
  | selectColumns columns => step.get? "columns" = some (.ofTexts columns)
  | renameColumns mapping => step.get? "mapping" = some (.array (mapping.map Rename.pair))
  | orderBy keys limit =>
    step.Spells "columns" (WrittenList SortKey.Written) keys ∧
    (step.get? "limit" = limit.map (fun n => .ofNat n.toNat) ∨
      limit = none ∧ step.get? "limit" = some .null)
  | rawStatement template produced used =>
    step.get? "template" = some (.string template) ∧
    step.get? "columns_produced" = some (.ofTexts produced) ∧
    step.get? "columns_used" = used.map .ofTexts
  | quantile _ columns probs probsName temporary =>
    step.get? "columns" = columns.map .ofTexts ∧
    step.Spells "probs" (WrittenList WrittenProbability) probs ∧
    step.get? "probs_name" = probsName.map .string ∧
    step.get? "temporary" = temporary.map .bool

/-- The word for a join. -/
def Joining.name : Joining → Text
  | natural _ => "natural_join"
  | theta .. => "theta_join"

/-- The kind of a join. -/
def Joining.kind : Joining → Pipeline.JoinOp
  | natural _ => .natural
  | theta .. => .theta

/-- The fields of a join other than its operator and its right side. -/
def Joining.Fields (step : Json) : Joining → Prop
  | natural type => step.Spells "join_type" JoinType.Written type
  | theta predicate type suffixes =>
    step.get? "predicate" = some (.string predicate) ∧
    step.Spells "join_type" JoinType.Written type ∧
    step.get? "suffixes" = suffixes.map (fun s => .ofTexts [s.left, s.right])

/-- The steps of a document write a program down. -/
inductive Program.Written : Program → List Json → Prop where
  | table {name : Text} {columns : List Text} {qualifier : Option Text} {step : Json} :
      step.get? "op" = some (.string "table") → step.get? "name" = some (.string name) →
      step.get? "columns" = some (.ofTexts columns) →
      step.get? "schema" = qualifier.map .string → Written (.table name columns qualifier) [step]
  | step {before : Program} {operation : Operation} {steps : List Json} {step : Json} :
      Written before steps → step.get? "op" = some (.string operation.name) →
      operation.Fields step → Written (.step before operation) (steps ++ [step])
  | join {before right : Program} {joining : Joining} {steps rights : List Json} {step : Json} :
      Written before steps → step.get? "op" = some (.string joining.name) →
      step.get? "right" = some (.array rights) → Written right rights → joining.Fields step →
      Written (.join before right joining) (steps ++ [step])

/-! ## Fields that are read -/

namespace Pipeline

theorem ok_bind {α β : Type} (a : α) (f : α → Except Error β) : (Except.ok a >>= f) = f a := rfl

section Fields

variable {path key : Text} {step : Json}

theorem stringField_ok {t : Text} (h : step.get? key = some (.string t)) :
    stringField path step key = .ok t := by
  simp only [stringField, field, h]
  rfl

theorem asStrings_map (ts : List Text) : asStrings path key (ts.map .string) = .ok ts := by
  induction ts with
  | nil => rfl
  | cons t rest ih =>
    rw [List.map_cons, asStrings, ih]
    rfl

theorem asStringList_ofTexts (ts : List Text) : asStringList path key (.ofTexts ts) = .ok ts :=
  asStrings_map ts

theorem requiredList_ok {ts : List Text} (h : step.get? key = some (.ofTexts ts)) :
    requiredList path step key = .ok ts := by
  simp only [requiredList, field, h]
  exact asStringList_ofTexts ts

theorem stringListField_ok {ts : Option (List Text)} (h : step.get? key = ts.map .ofTexts) :
    stringListField path step key = .ok (ts.getD []) := by
  cases ts with
  | none => simp only [stringListField, h, Option.map_none, Option.getD_none]
  | some ts =>
    simp only [stringListField, h, Option.map_some]
    exact asStringList_ofTexts ts

theorem asAssignments_map (fs : List Formula) :
    asAssignments path key (fs.map Formula.pair) = Formula.readAll fs := by
  induction fs with
  | nil => rfl
  | cons f rest ih =>
    rw [List.map_cons, Formula.readAll, ← ih]
    rfl

theorem assignmentsField_eq {fs : Option (List Formula)}
    (h : step.get? key = fs.map fun fs => .array (fs.map Formula.pair)) :
    assignmentsField path step key = Formula.readAll (fs.getD []) := by
  cases fs with
  | none => simp only [assignmentsField, h, Option.map_none, Option.getD_none, Formula.readAll]
  | some fs =>
    simp only [assignmentsField, h, Option.map_some]
    exact asAssignments_map fs

theorem switch_ok {absent : Bool} {b : Option Bool} (h : step.get? key = b.map .bool) :
    switch path key absent step = .ok (b.getD absent) := by
  cases b with
  | none => simp only [switch, h, Option.map_none, Option.getD_none]
  | some b => simp only [switch, h, Option.map_some, Option.getD_some]

theorem asOrderTerm_ok {k : SortKey} {value : Json} (h : k.Written value) :
    asOrderTerm path key value = .ok k.term := by
  cases h with
  | column column => rfl
  | object hcolumn hdesc =>
    simp only [asOrderTerm, stringField_ok hcolumn, switch_ok hdesc]
    rfl

theorem asOrderTerms_ok {keys : List SortKey} {items : List Json}
    (h : List.Forall₂ SortKey.Written keys items) :
    asOrderTerms path key items = .ok (keys.map SortKey.term) := by
  induction h with
  | nil => rfl
  | cons hk _ ih =>
    simp only [asOrderTerms, asOrderTerm_ok hk, ih]
    rfl

theorem orderField_ok {keys : Option (List SortKey)}
    (h : step.Spells key (WrittenList SortKey.Written) keys) :
    orderField path step key = .ok ((keys.getD []).map SortKey.term) := by
  cases keys with
  | none => simp only [orderField, show step.get? key = none from h]; rfl
  | some keys =>
    obtain ⟨value, hvalue, items, rfl, hitems⟩ := h
    simp only [orderField, hvalue]
    exact asOrderTerms_ok hitems

theorem unsigned?_ofNat (n : UInt64) :
    Json.Number.unsigned? ⟨false, ⟨n.toNat, 0⟩, true⟩ = some n.toNat := by
  simp [Json.Number.unsigned?, n.toNat_lt]

theorem limitField_ok {limit : Option UInt64}
    (h : step.get? "limit" = limit.map (fun n => .ofNat n.toNat) ∨
      limit = none ∧ step.get? "limit" = some .null) :
    limitField path step = .ok (limit.map UInt64.toNat) := by
  rcases h with h | ⟨rfl, h⟩
  · cases limit with
    | none => simp only [limitField, h, Option.map_none]
    | some n => simp only [limitField, h, Option.map_some, Json.ofNat, unsigned?_ofNat]
  · simp only [limitField, h, Option.map_none]

theorem joinTypeField_ok {type : Option JoinType} (h : step.Spells "join_type" JoinType.Written type) :
    joinTypeField path step = .ok (type.getD .inner) := by
  cases type with
  | none => simp only [joinTypeField, show step.get? "join_type" = none from h, Option.getD_none]
  | some type =>
    obtain ⟨value, hvalue, name, rfl, hname⟩ := h
    have hof : JoinType.ofName? type.name = some type := by cases type <;> decide
    simp only [joinTypeField, hvalue, asString, ok_bind, hname, hof, Option.getD_some]
    rfl

theorem suffixesField_ok {suffixes : Option Suffixes}
    (h : step.get? "suffixes" = suffixes.map fun s => .ofTexts [s.left, s.right]) :
    suffixesField path step = .ok (suffixes.getD ⟨"_a", "_b"⟩) := by
  cases suffixes with
  | none => simp only [suffixesField, h, Option.map_none, Option.getD_none, Suffixes.default]
  | some s =>
    simp only [suffixesField, h, Option.map_some, asStringList_ofTexts]
    rfl

theorem asRenames_map (mapping : List Rename) :
    asRenames path (mapping.map Rename.pair) = .ok mapping := by
  induction mapping with
  | nil => rfl
  | cons r rest ih =>
    simp only [List.map_cons, asRenames, Rename.pair, asStringList_ofTexts] at ih ⊢
    rw [ih]
    rfl

theorem mappingField_ok {mapping : List Rename}
    (h : step.get? "mapping" = some (.array (mapping.map Rename.pair))) :
    mappingField path step = .ok mapping := by
  simp only [mappingField, field, h]
  exact asRenames_map mapping

theorem asProbabilities_ok {probs : List Binary64} {items : List Json}
    (h : List.Forall₂ WrittenProbability probs items) : asProbabilities path items = .ok probs := by
  induction h with
  | nil => rfl
  | cons hp _ ih =>
    obtain ⟨n, rfl, hn⟩ := hp
    rw [asProbabilities, ih, hn]
    rfl

theorem quantileFields_ok {columns : Option (List Text)} {probs : Option (List Binary64)}
    {probsName : Option Text} {temporary : Option Bool}
    (hcolumns : step.get? "columns" = columns.map .ofTexts)
    (hprobs : step.Spells "probs" (WrittenList WrittenProbability) probs)
    (hname : step.get? "probs_name" = probsName.map .string)
    (htemporary : step.get? "temporary" = temporary.map .bool) :
    quantileFields path step = .ok
      { Quantile.defaultSpec with
        columns := columns.getD Quantile.defaultSpec.columns
        probs := probs.getD Quantile.defaultSpec.probs
        probsName := probsName.getD Quantile.defaultSpec.probsName
        temporary := temporary.getD Quantile.defaultSpec.temporary } := by
  simp only [quantileFields, stringListField_ok hcolumns, switch_ok htemporary, ok_bind]
  cases probs with
  | none =>
    simp only [show step.get? "probs" = none from hprobs, hname, pure_bind]
    cases probsName with
    | none => rfl
    | some name => rfl
  | some ps =>
    obtain ⟨value, hvalue, items, rfl, hitems⟩ := hprobs
    simp only [hvalue, asProbabilities_ok hitems, hname, ok_bind]
    cases probsName with
    | none => rfl
    | some name => rfl

theorem qualifierField_ok {qualifier : Option Text} (h : step.get? "schema" = qualifier.map .string) :
    qualifierField path step = .ok qualifier := by
  cases qualifier with
  | none => simp only [qualifierField, h, Option.map_none]
  | some t => simp only [qualifierField, h, Option.map_some]; rfl

end Fields

/-! ## Steps that are loaded -/

section Steps

variable {path : Text} {step : Json}

theorem loadSource_eq {name : Text} {columns : List Text} {qualifier : Option Text}
    (hop : step.get? "op" = some (.string "table")) (hname : step.get? "name" = some (.string name))
    (hcolumns : step.get? "columns" = some (.ofTexts columns))
    (hqualifier : step.get? "schema" = qualifier.map .string) :
    loadSource path step = table name columns qualifier := by
  cases step with
  | object fields =>
    simp only [loadSource, stringField_ok hop, stringField_ok hname, requiredList_ok hcolumns,
      qualifierField_ok hqualifier, ok_bind]
    rfl
  | _ => simp [Json.get?] at hop

/-- A step is loaded as the operation that it writes, with its place as the tag. -/
theorem loadOperator_eq (digest : Text → Text) (tree : Tree) {operation : Operation}
    (h : operation.Fields step) :
    loadOperator digest path operation.name tree step = (operation.tagged path).build digest tree := by
  unfold loadOperator Operation.name
  -- the tests of the word are settled by computation, once the fields are known
  cases operation with
  | extend assignments partitionBy keys =>
    obtain ⟨hassignments, hpartition, hkeys⟩ := h
    rw [orderField_ok hkeys, stringListField_ok hpartition, assignmentsField_eq hassignments]
    rfl
  | project groupBy aggregates =>
    obtain ⟨hgroup, haggregates⟩ := h
    rw [assignmentsField_eq haggregates, stringListField_ok hgroup]
    rfl
  | selectRows predicate =>
    rw [stringField_ok h]
    rfl
  | selectColumns columns =>
    rw [requiredList_ok h]
    rfl
  | renameColumns mapping =>
    rw [mappingField_ok h]
    rfl
  | orderBy keys limit =>
    obtain ⟨hkeys, hlimit⟩ := h
    rw [limitField_ok hlimit, orderField_ok hkeys]
    rfl
  | rawStatement template produced used =>
    obtain ⟨htemplate, hproduced, hused⟩ := h
    rw [stringField_ok htemplate, requiredList_ok hproduced, stringListField_ok hused]
    rfl
  | quantile tag columns probs probsName temporary =>
    obtain ⟨hcolumns, hprobs, hname, htemporary⟩ := h
    rw [quantileFields_ok hcolumns hprobs hname htemporary]
    rfl

theorem loadJoin_eq (left right : Tree) {joining : Joining} (h : joining.Fields step) :
    loadJoin path joining.kind left right step = joining.build left right := by
  cases joining with
  | natural type =>
    simp only [loadJoin, Joining.kind, joinTypeField_ok h, ok_bind]
    rfl
  | theta predicate type suffixes =>
    obtain ⟨hpredicate, htype, hsuffixes⟩ := h
    simp only [loadJoin, Joining.kind, suffixesField_ok hsuffixes, joinTypeField_ok htype,
      stringField_ok hpredicate, ok_bind]
    rfl

theorem ofName?_operation (operation : Operation) : JoinOp.ofName? operation.name = none := by
  cases operation with
  | _ => rfl

theorem ofName?_joining (joining : Joining) : JoinOp.ofName? joining.name = some joining.kind := by
  cases joining with
  | _ => rfl

theorem loadStep_operation (digest : Text → Text) (tree : Tree) {operation : Operation}
    (hop : step.get? "op" = some (.string operation.name)) (h : operation.Fields step) :
    loadStep digest path tree step = (operation.tagged path).build digest tree := by
  cases step with
  | object fields =>
    rw [loadStep, stringField_ok hop, ok_bind, ofName?_operation]
    exact loadOperator_eq digest tree h
  | _ => simp [Json.get?] at hop

/-- A join loads its right side at its own place, before it looks at its other fields. -/
theorem loadStep_joining (digest : Text → Text) (tree : Tree) {joining : Joining} {rights : List Json}
    (hop : step.get? "op" = some (.string joining.name))
    (hright : step.get? "right" = some (.array rights)) (h : joining.Fields step) :
    loadStep digest path tree step =
      loadAt digest (path ++ ".right") (.array rights) >>= fun right => joining.build tree right := by
  cases step with
  | object fields =>
    -- the word tells the join from the other operators before any field is read
    rw [loadStep, stringField_ok hop, ok_bind, ofName?_joining]
    simp only
    split
    · rename_i hnone
      exact absurd (hright.symm.trans hnone) (by simp)
    · rename_i doc hdoc
      obtain rfl : Json.array rights = doc := Option.some.inj (hright.symm.trans hdoc)
      simp only [loadJoin_eq _ _ h]
  | _ => simp [Json.get?] at hop

end Steps

/-! ## Documents that are loaded -/

theorem loadSteps_append (digest : Text → Text) (path : Text) (index : Nat) (tree : Tree)
    (steps more : List Json) :
    loadSteps digest path index tree (steps ++ more) =
      loadSteps digest path index tree steps >>= fun tree =>
        loadSteps digest path (index + steps.length) tree more := by
  induction steps generalizing index tree with
  | nil => simp only [List.nil_append, loadSteps, ok_bind, List.length_nil, Nat.add_zero]
  | cons step rest ih =>
    simp only [List.cons_append, loadSteps, ih, bind_assoc, List.length_cons]
    simp only [Nat.add_assoc, Nat.add_comm 1]

/-- The last step is loaded on top of the tree of those before it. -/
theorem loadAt_concat (digest : Text → Text) (path : Text) {steps : List Json} (h : steps ≠ [])
    (step : Json) :
    loadAt digest path (.array (steps ++ [step])) =
      loadAt digest path (.array steps) >>= fun tree =>
        loadStep digest (stepPath path steps.length) tree step := by
  obtain ⟨first, rest, rfl⟩ := List.exists_cons_of_ne_nil h
  rw [List.cons_append, loadAt, loadAt, bind_assoc]
  refine congrArg _ (funext fun source => ?_)
  rw [loadSteps_append, List.length_cons, Nat.add_comm]
  refine congrArg _ (funext fun tree => ?_)
  simp only [loadSteps]
  exact bind_pure _

end Pipeline

namespace Program

theorem Written.length_eq {p : Program} {steps : List Json} (h : p.Written steps) :
    steps.length = p.length := by
  induction h with
  | table _ _ _ _ => rfl
  | step _ _ _ ih => rw [List.length_append, ih, length, List.length_singleton]
  | join _ _ _ _ _ ihb _ => rw [List.length_append, ihb, length, List.length_singleton]

theorem length_pos (p : Program) : 0 < p.length := by
  cases p with
  | table _ _ _ => exact Nat.one_pos
  | step _ _ | join _ _ _ => exact Nat.succ_pos _

theorem Written.ne_nil {p : Program} {steps : List Json} (h : p.Written steps) : steps ≠ [] :=
  List.ne_nil_of_length_pos (h.length_eq ▸ p.length_pos)

/-- **A document is loaded as the program that it writes**, with places for tags. -/
theorem Written.loadAt_eq (digest : Text → Text) {p : Program} {steps : List Json}
    (h : p.Written steps) (path : Text) :
    Pipeline.loadAt digest path (.array steps) = (p.placed path).build digest := by
  induction h generalizing path with
  | table hop hname hcolumns hqualifier =>
    rw [Pipeline.loadAt, Pipeline.loadSource_eq hop hname hcolumns hqualifier]
    simp only [Pipeline.loadSteps]
    exact bind_pure _
  | step hbefore hop hfields ih =>
    -- the last step is loaded at the place that is the length of the program before it
    rw [Pipeline.loadAt_concat digest path hbefore.ne_nil, ih, hbefore.length_eq]
    simp only [Pipeline.loadStep_operation digest _ hop hfields]
    rfl
  | join hbefore hop hright _ hfields ihb ihr =>
    rw [Pipeline.loadAt_concat digest path hbefore.ne_nil, ihb, hbefore.length_eq]
    simp only [Pipeline.loadStep_joining digest _ hop hright hfields, ihr]
    rfl

end Program

/-! ## A document for each program -/

/-- An object with those of the fields that have a value. -/
def Json.ofFields (fields : List (Text × Option Json)) : Json :=
  .object (fields.filterMap fun (key, value) => value.map fun value => (key, value))

theorem Json.get?_ofFields_eq_none {fields : List (Text × Option Json)} {key : Text}
    (h : ∀ value, (key, value) ∉ fields) : (ofFields fields).get? key = none := by
  induction fields with
  | nil => rfl
  | cons field rest ih =>
    obtain ⟨other, value⟩ := field
    have hrest := ih fun value hmem => h value (List.mem_cons_of_mem _ hmem)
    cases value with
    | none => exact hrest
    | some v =>
      have hne : key ≠ other := by
        rintro rfl
        exact h (some v) List.mem_cons_self
      exact (if_neg hne).trans hrest

/-- A field that is listed once has the value that is listed for it. -/
theorem Json.get?_ofFields {fields : List (Text × Option Json)} (hkeys : (fields.map Prod.fst).Nodup)
    {key : Text} {value : Option Json} (h : (key, value) ∈ fields) :
    (ofFields fields).get? key = value := by
  induction fields with
  | nil => cases h
  | cons field rest ih =>
    obtain ⟨other, listed⟩ := field
    obtain ⟨hother, hrest⟩ := List.nodup_cons.mp hkeys
    have hapart : ∀ v, (other, v) ∉ rest := fun v hmem => hother (List.mem_map.mpr ⟨_, hmem, rfl⟩)
    rcases List.mem_cons.mp h with heq | hmem
    · obtain ⟨rfl, rfl⟩ := Prod.mk.inj heq
      -- a field without a value is left out, so the look-up has to fail in the rest
      cases value with
      | none =>
        show (ofFields rest).get? key = none
        exact get?_ofFields_eq_none hapart
      | some v => exact if_pos rfl
    · cases listed with
      | none => exact ih hrest hmem
      | some v =>
        have hne : key ≠ other := by
          rintro rfl
          exact hapart value hmem
        exact (if_neg hne).trans (ih hrest hmem)

theorem Json.Spells.of_map {α : Type} {step : Json} {key : Text} {written : α → Json → Prop}
    {write : α → Json} {a : Option α} (hwrite : ∀ b ∈ a, written b (write b))
    (h : step.get? key = a.map write) : step.Spells key written a := by
  cases a with
  | none => exact h
  | some b => exact ⟨write b, h, hwrite b rfl⟩

theorem writtenList_map {α : Type} {written : α → Json → Prop} {write : α → Json} {as : List α}
    (hwrite : ∀ a ∈ as, written a (write a)) : WrittenList written as (.array (as.map write)) :=
  ⟨as.map write, rfl, List.forall₂_map_right_iff.mpr (List.forall₂_same.mpr hwrite)⟩

/-- A key as an object. -/
def SortKey.document (k : SortKey) : Json :=
  .ofFields [("column", some (.string k.column)), ("desc", k.descending.map .bool)]

theorem SortKey.written_document (k : SortKey) : k.Written k.document :=
  .object (Json.get?_ofFields (by simp +decide) (by simp))
    (Json.get?_ofFields (by simp +decide) (by simp))

/-- The fields of an operation in its document. -/
def Operation.fields (o : Operation) : List (Text × Option Json) :=
  ("op", some (.string o.name)) ::
    match o with
    | extend assignments partitionBy keys =>
      [("assignments", assignments.map fun fs => .array (fs.map Formula.pair)),
        ("partition_by", partitionBy.map .ofTexts),
        ("order_by", keys.map fun ks => .array (ks.map SortKey.document))]
    | project groupBy aggregates =>
      [("group_by", groupBy.map .ofTexts),
        ("aggregates", aggregates.map fun fs => .array (fs.map Formula.pair))]
    | selectRows predicate => [("predicate", some (.string predicate))]
    | selectColumns columns => [("columns", some (.ofTexts columns))]
    | renameColumns mapping => [("mapping", some (.array (mapping.map Rename.pair)))]
    | orderBy keys limit =>
      [("columns", keys.map fun ks => .array (ks.map SortKey.document)),
        ("limit", limit.map fun n => .ofNat n.toNat)]
    | rawStatement template produced used =>
      [("template", some (.string template)), ("columns_produced", some (.ofTexts produced)),
        ("columns_used", used.map .ofTexts)]
    | quantile _ columns probs probsName temporary =>
      [("columns", columns.map .ofTexts), ("probs", probs.map fun ps => .array (ps.map Binary64.toJson)),
        ("probs_name", probsName.map .string), ("temporary", temporary.map .bool)]

/-- The fields of a join in its document, given the steps of its right side. -/
def Joining.fields (rights : List Json) (j : Joining) : List (Text × Option Json) :=
  ("op", some (.string j.name)) :: ("right", some (.array rights)) ::
    match j with
    | natural type => [("join_type", type.map fun t => .string t.name)]
    | theta predicate type suffixes =>
      [("predicate", some (.string predicate)), ("join_type", type.map fun t => .string t.name),
        ("suffixes", suffixes.map fun s => .ofTexts [s.left, s.right])]

/-- The steps of a document that writes a program. -/
def Program.document : Program → List Json
  | table name columns qualifier =>
    [.ofFields [("op", some (.string "table")), ("name", some (.string name)),
      ("columns", some (.ofTexts columns)), ("schema", qualifier.map .string)]]
  | step before operation => before.document ++ [.ofFields operation.fields]
  | join before right joining => before.document ++ [.ofFields (joining.fields right.document)]

theorem Operation.get?_fields (o : Operation) {key : Text} {value : Option Json}
    (h : (key, value) ∈ o.fields) : (Json.ofFields o.fields).get? key = value := by
  refine Json.get?_ofFields ?_ h
  cases o with
  | _ =>
    simp only [fields, List.map_cons, List.map_nil]
    decide

theorem Joining.get?_fields (rights : List Json) (j : Joining) {key : Text} {value : Option Json}
    (h : (key, value) ∈ j.fields rights) : (Json.ofFields (j.fields rights)).get? key = value := by
  refine Json.get?_ofFields ?_ h
  cases j with
  | _ =>
    simp only [fields, List.map_cons, List.map_nil]
    decide

/-- The probabilities that an operation is given. -/
def Operation.probabilities : Operation → List Binary64
  | quantile _ _ probs _ _ => probs.getD []
  | _ => []

/-- The probabilities that the steps of a program are given. -/
def Program.probabilities : Program → List Binary64
  | table .. => []
  | step before operation => before.probabilities ++ operation.probabilities
  | join before right _ => before.probabilities ++ right.probabilities

theorem Operation.fields_written (o : Operation) (h : ∀ x ∈ o.probabilities, x.Regular) :
    o.Fields (.ofFields o.fields) := by
  have hget := @o.get?_fields
  have hkeys : ∀ keys : List SortKey,
      WrittenList SortKey.Written keys (.array (keys.map SortKey.document)) :=
    fun keys => writtenList_map fun k _ => k.written_document
  cases o with
  | extend assignments partitionBy keys =>
    exact ⟨hget (by simp [fields]), hget (by simp [fields]),
      .of_map (fun ks _ => hkeys ks) (hget (by simp [fields]))⟩
  | project groupBy aggregates => exact ⟨hget (by simp [fields]), hget (by simp [fields])⟩
  | selectRows predicate => exact hget (by simp [fields])
  | selectColumns columns => exact hget (by simp [fields])
  | renameColumns mapping => exact hget (by simp [fields])
  | orderBy keys limit =>
    exact ⟨.of_map (fun ks _ => hkeys ks) (hget (by simp [fields])),
      Or.inl (hget (by simp [fields]))⟩
  | rawStatement template produced used =>
    exact ⟨hget (by simp [fields]), hget (by simp [fields]), hget (by simp [fields])⟩
  | quantile tag columns probs probsName temporary =>
    have hprobs : ∀ ps ∈ probs,
        WrittenList WrittenProbability ps (.array (ps.map Binary64.toJson)) := by
      rintro ps rfl
      exact writtenList_map fun x hx => (h x hx).toJson_number
    exact ⟨hget (by simp [fields]), .of_map hprobs (hget (by simp [fields])),
      hget (by simp [fields]), hget (by simp [fields])⟩

theorem Joining.fields_written (rights : List Json) (j : Joining) :
    j.Fields (.ofFields (j.fields rights)) := by
  have hget := @j.get?_fields rights
  have htype : ∀ t : JoinType, t.Written (.string t.name) :=
    fun t => ⟨t.name, rfl, by cases t with | _ => rfl⟩
  cases j with
  | natural type => exact .of_map (fun t _ => htype t) (hget (by simp [fields]))
  | theta predicate type suffixes =>
    exact ⟨hget (by simp [fields]), .of_map (fun t _ => htype t) (hget (by simp [fields])),
      hget (by simp [fields])⟩

/-- Every program with finite probabilities is written by a document. -/
theorem Program.written_document {p : Program} (h : ∀ x ∈ p.probabilities, x.Regular) :
    p.Written p.document := by
  induction p with
  | table name columns qualifier =>
    refine .table ?_ ?_ ?_ ?_
    all_goals exact Json.get?_ofFields (by simp +decide) (by simp)
  | step before operation ih =>
    obtain ⟨hbefore, hoperation⟩ := List.forall_mem_append.mp h
    exact .step (ih hbefore) (operation.get?_fields List.mem_cons_self)
      (operation.fields_written hoperation)
  | join before right joining ihb ihr =>
    obtain ⟨hbefore, hright⟩ := List.forall_mem_append.mp h
    exact .join (ihb hbefore) (joining.get?_fields _ List.mem_cons_self)
      (joining.get?_fields _ (List.mem_cons_of_mem _ List.mem_cons_self)) (ihr hright)
      (joining.fields_written _)

/-- **Loading a document builds the program that it writes.** Every program is written by a document, as
long as the probabilities that it gives are finite doubles: each of these is some decimal number.
Loading any document that writes it gives the tree, or the error, of building it step by step with
the places of its steps for tags, and so the same up to tags as building it with its own. -/
theorem Program.load_written (digest : Text → Text) (p : Program) :
    ((∀ x ∈ p.probabilities, x.Regular) → p.Written p.document) ∧
    ∀ steps, p.Written steps →
      Pipeline.load digest (.array steps) = (p.placed "pipeline").build digest ∧
      Tree.anonymous <$> Pipeline.load digest (.array steps) = Tree.anonymous <$> p.build digest := by
  refine ⟨written_document, fun steps h => ?_⟩
  have hload : Pipeline.load digest (.array steps) = (p.placed "pipeline").build digest :=
    h.loadAt_eq digest "pipeline"
  refine ⟨hload, ?_⟩
  calc Tree.anonymous <$> Pipeline.load digest (.array steps)
      = (p.placed "pipeline").untagged.build digest := by rw [hload, map_anonymous_build]
    _ = p.untagged.build digest := by rw [untagged_placed]
    _ = Tree.anonymous <$> p.build digest := (map_anonymous_build digest p).symm

/-- Rows matched with those of a filtered table, then summarized by two of their quantiles. -/
def matchedSummary : Program :=
  .step
    (.join (.table "l" ["k", "a"] none) (.step (.table "r" ["k", "b"] (some "s")) (.selectRows "b > 0"))
      (.theta "k_a = k_b" none none))
    (.quantile "mine" (some ["a", "b"])
      (some [.finite false (2 ^ 52) (-53), .finite false 8106479329266893 (-53)]) (some "p") none)

theorem Program.load_written_matchedSummary :
    (∀ x ∈ matchedSummary.probabilities, x.Regular) ∧
    matchedSummary.Written matchedSummary.document ∧
    (Pipeline.load id (.array matchedSummary.document)).toOption.map Tree.schema =
      some [Text.ofString "p", "a", "b"] ∧
    Tree.anonymous <$> Pipeline.load id (.array matchedSummary.document) =
      Tree.anonymous <$> matchedSummary.build id := by
  have hregular : ∀ x ∈ matchedSummary.probabilities, x.Regular := by
    decide
  obtain ⟨hwritten, hload⟩ := load_written id matchedSummary
  obtain ⟨hplaced, hsame⟩ := hload _ (hwritten hregular)
  refine ⟨hregular, hwritten hregular, ?_, hsame⟩
  rw [hplaced]
  decide +kernel

end SqlPipeline
