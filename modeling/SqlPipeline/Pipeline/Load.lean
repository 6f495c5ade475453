import SqlPipeline.Json
import SqlPipeline.Quantile

/-!
# Loading a pipeline document

A pipeline document is a JSON array of steps. The first one describes a table, and
each other one names an operator and gives its fields; a join holds the document of
its right side. Steps are built in order, so the first fault in the document is the
error, and it names the place of its step, such as `pipeline[2].right[0]`.

A quantile step takes the place of the step as the tag of its transform, which
makes the transforms of one document different from each other.
-/

namespace SqlPipeline.Pipeline

/-! ## Fields of a step -/

/-- The fault of the step at a place. -/
def fault {α : Type} (path : Text) (f : StepFault) : Except Error α := .error (.badStep path f)

/-- A field that has to be there. -/
def field (path : Text) (step : Json) (key : Text) : Except Error Json :=
  match step.get? key with
  | some value => .ok value
  | none => fault path (.missing key)

/-- A string. -/
def asString (path key : Text) : Json → Except Error Text
  | .string t => .ok t
  | _ => fault path (.notString key)

/-- A field that has to be there and hold a string. -/
def stringField (path : Text) (step : Json) (key : Text) : Except Error Text := do
  asString path key (← field path step key)

/-- The strings of a list. -/
def asStrings (path key : Text) : List Json → Except Error (List Text)
  | [] => .ok []
  | .string t :: rest => (asStrings path key rest).map (t :: ·)
  | _ :: _ => fault path (.notStringList key)

/-- A list of strings. -/
def asStringList (path key : Text) : Json → Except Error (List Text)
  | .array items => asStrings path key items
  | _ => fault path (.notStringList key)

/-- A field that holds a list of strings, empty when it is not there. -/
def stringListField (path : Text) (step : Json) (key : Text) : Except Error (List Text) :=
  match step.get? key with
  | some value => asStringList path key value
  | none => .ok []

/-- A field that has to be there and hold a list of strings. -/
def requiredList (path : Text) (step : Json) (key : Text) : Except Error (List Text) := do
  asStringList path key (← field path step key)

/-- Reads expression text. -/
def readExpr (t : Text) (allowInput : Bool) : Except Error Expr :=
  match Expr.read t allowInput with
  | .ok e => .ok e
  | .error e => .error (.badExpression e)

/-- The assignments of a list of pairs. -/
def asAssignments (path key : Text) : List Json → Except Error (List Assignment)
  | [] => .ok []
  | .array [.string target, .string text] :: rest => do
    let expr ← readExpr text false
    let assignments ← asAssignments path key rest
    return ⟨target, expr⟩ :: assignments
  | _ :: _ => fault path (.notPair key)

/-- A field that holds assignments, empty when it is not there. -/
def assignmentsField (path : Text) (step : Json) (key : Text) : Except Error (List Assignment) :=
  match step.get? key with
  | some (.array items) => asAssignments path key items
  | some _ => fault path (.notPairList key)
  | none => .ok []

/-- A switch, which stands as `absent` says when it is not there. -/
def switch (path key : Text) (absent : Bool) (step : Json) : Except Error Bool :=
  match step.get? key with
  | some (.bool value) => .ok value
  | some _ => fault path (.notBoolean key)
  | none => .ok absent

/-- A term of an ordering: a column, or an object that says which way to sort. -/
def asOrderTerm (path key : Text) : Json → Except Error OrderTerm
  | .string column => .ok ⟨column, false⟩
  | .object fields => do
    let column ← stringField path (.object fields) "column"
    let descending ← switch path "desc" false (.object fields)
    return ⟨column, descending⟩
  | _ => fault path (.notOrderTerm key)

/-- The terms of a list. -/
def asOrderTerms (path key : Text) : List Json → Except Error (List OrderTerm)
  | [] => .ok []
  | item :: rest => do
    let term ← asOrderTerm path key item
    let terms ← asOrderTerms path key rest
    return term :: terms

/-- A field that holds an ordering, empty when it is not there. -/
def orderField (path : Text) (step : Json) (key : Text) : Except Error (List OrderTerm) :=
  match step.get? key with
  | some (.array items) => asOrderTerms path key items
  | some _ => fault path (.notList key)
  | none => .ok []

/-- The limit of a step; a null is none. -/
def limitField (path : Text) (step : Json) : Except Error (Option Nat) :=
  match step.get? "limit" with
  | none | some .null => .ok none
  | some (.number n) =>
    match n.unsigned? with
    | some limit => .ok (some limit)
    | none => fault path .notLimit
  | some _ => fault path .notLimit

/-- The join of a step, in any case; inner when it is not there. -/
def joinTypeField (path : Text) (step : Json) : Except Error JoinType :=
  match step.get? "join_type" with
  | none => .ok .inner
  | some value => do
    let name ← asString path "join_type" value
    match JoinType.ofName? (Text.toUpper name) with
    | some type => return type
    | none => fault path (.unknownJoinType name)

/-- The suffixes of a step. -/
def suffixesField (path : Text) (step : Json) : Except Error Suffixes :=
  match step.get? "suffixes" with
  | none => .ok .default
  | some value => do
    match ← asStringList path "suffixes" value with
    | [left, right] => return ⟨left, right⟩
    | _ => fault path .suffixCount

/-- The pairs of a renaming, each with the new name first. -/
def asRenames (path : Text) : List Json → Except Error (List Rename)
  | [] => .ok []
  | item :: rest => do
    match ← asStringList path "mapping" item with
    | [new, old] =>
      let renames ← asRenames path rest
      return ⟨new, old⟩ :: renames
    | _ => fault path .mappingNotPair

/-- The renaming of a step. -/
def mappingField (path : Text) (step : Json) : Except Error (List Rename) := do
  match ← field path step "mapping" with
  | .array items => asRenames path items
  | _ => fault path .mappingNotList

/-- The numbers of a list. -/
def asProbabilities (path : Text) : List Json → Except Error (List Binary64)
  | [] => .ok []
  | .number n :: rest => (asProbabilities path rest).map (n.toBinary64 :: ·)
  | _ :: _ => fault path .notProbabilities

/-- The specification of a quantile step, with the default for what it leaves out. -/
def quantileFields (path : Text) (step : Json) : Except Error QuantileSpec := do
  let columns ← stringListField path step "columns"
  let probs ←
    match step.get? "probs" with
    | some (.array items) => asProbabilities path items
    | some _ => fault path .notProbabilities
    | none => pure Quantile.defaultSpec.probs
  let probsName ←
    match step.get? "probs_name" with
    | some value => asString path "probs_name" value
    | none => pure Quantile.defaultSpec.probsName
  let temporary ← switch path "temporary" true step
  return { Quantile.defaultSpec with
    columns := columns
    probs := probs
    probsName := probsName
    temporary := temporary }

/-! ## Steps -/

/-- The qualifier of a table step. -/
def qualifierField (path : Text) (step : Json) : Except Error (Option Text) :=
  match step.get? "schema" with
  | some value => (asString path "schema" value).map some
  | none => .ok none

/-- Builds the first step, which has to describe a table. -/
def loadSource (path : Text) (step : Json) : Except Error Tree := do
  let .object _ := step | fault path .notAnObject
  let op ← stringField path step "op"
  if op ≠ "table" then fault path .firstNotTable
  let qualifier ← qualifierField path step
  let columns ← requiredList path step "columns"
  let name ← stringField path step "name"
  table name columns qualifier

/-- Builds a step that is no join on top of a tree. -/
def loadOperator (digest : Text → Text) (path op : Text) (tree : Tree) (step : Json) :
    Except Error Tree := do
  if op = "extend" then
    let order ← orderField path step "order_by"
    let partitionBy ← stringListField path step "partition_by"
    let assignments ← assignmentsField path step "assignments"
    extend tree assignments partitionBy order
  else if op = "project" then
    let aggregates ← assignmentsField path step "aggregates"
    let groupBy ← stringListField path step "group_by"
    project tree groupBy aggregates
  else if op = "select_rows" then
    let text ← stringField path step "predicate"
    let predicate ← readExpr text false
    selectRows tree predicate
  else if op = "select_columns" then
    let columns ← requiredList path step "columns"
    selectColumns tree columns
  else if op = "rename_columns" then
    let mapping ← mappingField path step
    renameColumns tree mapping
  else if op = "order_by" then
    let limit ← limitField path step
    let terms ← orderField path step "columns"
    orderBy tree terms limit
  else if op = "raw_statement" then
    let text ← stringField path step "template"
    let template ← readExpr text true
    let produced ← requiredList path step "columns_produced"
    let used ← stringListField path step "columns_used"
    rawStatement tree used produced template
  else if op = "quantile" then
    let spec ← quantileFields path step
    quantile digest path tree spec
  else if op = "external_transform" then fault path .needsCallerCode
  else if op = "table" then fault path .tableNotFirst
  else fault path (.unknownOperator op)

/-- The joins that a step can ask for. -/
inductive JoinOp where
  | natural
  | theta
  deriving Repr, DecidableEq

/-- The join that an operator's name stands for. -/
def JoinOp.ofName? (op : Text) : Option JoinOp :=
  if op = "natural_join" then some .natural else if op = "theta_join" then some .theta else none

/-- Builds a join step on top of its two trees. -/
def loadJoin (path : Text) (join : JoinOp) (left right : Tree) (step : Json) : Except Error Tree := do
  match join with
  | .natural =>
    let type ← joinTypeField path step
    naturalJoin left right type
  | .theta =>
    let suffixes ← suffixesField path step
    let type ← joinTypeField path step
    let text ← stringField path step "predicate"
    let predicate ← readExpr text false
    thetaJoin left right predicate type suffixes

/-- The place of a step in the document at a place. -/
def stepPath (path : Text) (index : Nat) : Text := path ++ "[" ++ Text.ofNat index ++ "]"

mutual

/-- Builds the tree of a document that stands at a place. -/
def loadAt (digest : Text → Text) (path : Text) (doc : Json) : Except Error Tree :=
  match doc with
  | .array (first :: rest) => do
    let source ← loadSource (stepPath path 0) first
    loadSteps digest path 1 source rest
  | _ => fault path .noSteps
termination_by sizeOf doc

/-- Builds the steps from a number on, on top of a tree. -/
def loadSteps (digest : Text → Text) (path : Text) (index : Nat) (tree : Tree) (steps : List Json) :
    Except Error Tree :=
  match steps with
  | [] => .ok tree
  | step :: rest => do
    let tree ← loadStep digest (stepPath path index) tree step
    loadSteps digest path (index + 1) tree rest
termination_by sizeOf steps

/-- Builds one step on top of a tree; a join builds its right side first. -/
def loadStep (digest : Text → Text) (path : Text) (tree : Tree) (step : Json) : Except Error Tree :=
  match step with
  | .object fields => do
    let op ← stringField path (.object fields) "op"
    match JoinOp.ofName? op with
    | none => loadOperator digest path op tree (.object fields)
    | some join =>
      match h : Json.lookup "right" fields with
      | none => fault path (.missing "right")
      | some doc =>
        have := Json.sizeOf_lookup h
        let right ← loadAt digest (path ++ ".right") doc
        loadJoin path join tree right (.object fields)
  | _ => fault path .notAnObject
termination_by sizeOf step

end

/-- Builds the tree of a document. -/
def load (digest : Text → Text) (doc : Json) : Except Error Tree := loadAt digest "pipeline" doc

/-- The error of a text that gives no document. -/
def readError : Json.ReadFault → Error
  | .malformed words => .badJson words
  | .outOfRange words => .jsonFailure words

/-- Builds the tree of a document's text. -/
def loadText (codec : Json.Codec) (digest : Text → Text) (t : Text) : Except Error Tree :=
  match codec.read t with
  | .ok doc => load digest doc
  | .error fault => .error (readError fault)

end SqlPipeline.Pipeline
