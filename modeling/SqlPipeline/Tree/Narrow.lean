import SqlPipeline.Pipeline.Build

/-!
# Narrowing

A tree often carries columns that nobody reads. Narrowing rebuilds it from the
root down so that each node puts out only what is still needed above it: the
columns asked for at the root, and below that whatever the operators on the way
read themselves. A node keeps its rows. It keeps at least one column too, because
a relation without columns cannot be written down.

The rebuilt nodes go through the same checks as any other node.
-/

namespace SqlPipeline

/-- The assignments of a batch that still matter when the columns in `live` are needed after it, and the
columns needed before it. -/
def liveAssignments (live : List Text) : List Assignment → List Assignment × List Text
  | [] => ([], live)
  | a :: rest =>
    let (kept, live) := liveAssignments live rest
    if live.contains a.target then
      (a :: kept, live.filter (fun name => name != a.target) ++ a.reads)
    else (kept, live)

/-- The old name of a column that has the given name after a renaming. -/
def oldName (mapping : List Rename) (name : Text) : Text :=
  match mapping.find? fun r => r.new == name with
  | some r => r.old
  | none => name

/-- The columns that are needed, or the first column when none is. -/
def keepOne (columns needed : List Text) : List Text :=
  match columns.filter needed.contains with
  | [] => columns.take 1
  | kept => kept

/-- The aggregates that are needed, or the first one when the result would have no column. -/
def keepAggregates (groupBy needed : List Text) (aggregates : List Assignment) : List Assignment :=
  match aggregates.filter fun a => needed.contains a.target with
  | [] => if groupBy.isEmpty then aggregates.take 1 else []
  | kept => kept

namespace Tree

/-- Rebuilds a tree for the needed columns; names that it does not put out do not count. -/
def narrowTo (tree : Tree) (wanted : List Text) : Except Error Tree :=
  let needed := wanted.filter tree.schema.contains
  match tree with
  | table t =>
    let columns := keepOne t.columns needed
    if columns = t.columns then .ok (table t) else Pipeline.table t.name columns t.qualifier
  | extend source assignments partitionBy order => do
    let (kept, live) := liveAssignments needed assignments
    if kept.isEmpty then source.narrowTo live
    else
      let child ← source.narrowTo (live ++ windowColumns partitionBy order)
      Pipeline.extend child kept partitionBy order
  | project source groupBy aggregates => do
    let kept := keepAggregates groupBy needed aggregates
    let child ← source.narrowTo (groupBy ++ kept.flatMap Assignment.reads)
    Pipeline.project child groupBy kept
  | naturalJoin left right type => do
    let keys := sharedColumns left.schema right.schema
    let left ← left.narrowTo (keys ++ needed)
    let right ← right.narrowTo (keys ++ needed)
    Pipeline.naturalJoin left right type
  | thetaJoin left right predicate type suffixes collisions => do
    let outputs := needed ++ predicate.columns
    let used := (joinColumns left.schema right.schema collisions suffixes).filter fun column =>
      outputs.contains column.output
    let left ← left.narrowTo ((used.filter JoinColumn.fromLeft).map JoinColumn.input)
    let right ← right.narrowTo ((used.filter fun column => !column.fromLeft).map JoinColumn.input)
    Pipeline.thetaJoinWith left right predicate type suffixes collisions
  | selectRows source predicate => do
    let child ← source.narrowTo (needed ++ predicate.columns)
    Pipeline.selectRows child predicate
  | selectColumns source columns => do
    let columns := keepOne columns needed
    let child ← source.narrowTo columns
    if child.schema = columns then return child else Pipeline.selectColumns child columns
  | renameColumns source mapping => do
    let child ← source.narrowTo (needed.map (oldName mapping))
    let mapping := mapping.filter fun r => child.schema.contains r.old
    if mapping.isEmpty then return child else Pipeline.renameColumns child mapping
  | orderBy source terms limit => do
    let child ← source.narrowTo (needed ++ terms.map OrderTerm.column)
    Pipeline.orderBy child terms limit
  | rawStatement source used produced template => do
    let child ← source.narrowTo (used ++ template.columns)
    Pipeline.rawStatement child used produced template
  | externalTransform source used produced transform incoming outgoing temporary => do
    let child ← source.narrowTo used
    Pipeline.externalTransform child used produced (some transform) incoming outgoing temporary

/-- Rebuilds a tree so that each node reads only what the given output columns need, or all of the
tree's columns when none are given. -/
def narrow (tree : Tree) (output : Option (List Text)) : Except Error Tree := do
  let requested := output.getD tree.schema
  if requested.isEmpty then throw .noOutputColumns
  Pipeline.requireColumns .narrowing tree.schema requested
  Pipeline.requireUnique .narrowing requested
  let narrowed ← tree.narrowTo requested
  if narrowed.schema = requested then return narrowed
  else Pipeline.selectColumns narrowed requested

end Tree

end SqlPipeline
