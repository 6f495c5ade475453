import SqlPipeline.Quantile

/-!
# Trees without identities

A transform has a tag, which tells it from every other transform and means nothing else.
`Tree.anonymous` forgets the tags. Nothing that is checked while a tree is built looks at
them: the columns of a tree and its plain view are those of the anonymous tree, and the
names of staging tables are made from the plain view. So every operator may be put on a
tree before or after the tags are forgotten, and it fails in the same cases with the same
error.
-/

namespace SqlPipeline

namespace Tree

/-- The tree with the tags of its transforms forgotten. -/
def anonymous : Tree → Tree
  | table t => table t
  | extend source assignments partitionBy order => extend source.anonymous assignments partitionBy order
  | project source groupBy aggregates => project source.anonymous groupBy aggregates
  | naturalJoin left right type => naturalJoin left.anonymous right.anonymous type
  | thetaJoin left right predicate type suffixes collisions =>
    thetaJoin left.anonymous right.anonymous predicate type suffixes collisions
  | selectRows source predicate => selectRows source.anonymous predicate
  | selectColumns source columns => selectColumns source.anonymous columns
  | renameColumns source mapping => renameColumns source.anonymous mapping
  | orderBy source terms limit => orderBy source.anonymous terms limit
  | rawStatement source used produced template => rawStatement source.anonymous used produced template
  | externalTransform source used produced transform incoming outgoing temporary =>
    externalTransform source.anonymous used produced { transform with tag := [] } incoming outgoing
      temporary

@[simp] theorem schema_anonymous (t : Tree) : t.anonymous.schema = t.schema := by
  induction t with
  | table t => rfl
  | extend source assignments partitionBy order ih =>
    show Text.appendNew source.anonymous.schema _ = _
    rw [ih]
    rfl
  | naturalJoin left right type ihl ihr =>
    show naturalColumns left.anonymous.schema right.anonymous.schema = _
    rw [ihl, ihr]
    rfl
  | thetaJoin left right predicate type suffixes collisions ihl ihr =>
    show (joinColumns left.anonymous.schema right.anonymous.schema _ _).map _ = _
    rw [ihl, ihr]
    rfl
  | renameColumns source mapping ih =>
    show source.anonymous.schema.map _ = _
    rw [ih]
    rfl
  | selectRows source _ ih | orderBy source _ _ ih => exact ih
  | project | selectColumns | rawStatement | externalTransform => rfl

@[simp] theorem headline_anonymous (t : Tree) : t.anonymous.headline = t.headline := by
  cases t with
  | extend source assignments partitionBy order =>
    show (extend source.anonymous assignments partitionBy order).headline = _
    simp only [headline, schema_anonymous]
  | naturalJoin left right type =>
    show (naturalJoin left.anonymous right.anonymous type).headline = _
    simp only [headline, schema_anonymous]
  | _ => rfl

theorem formatAt_anonymous (t : Tree) (depth : Nat) : t.anonymous.formatAt depth = t.formatAt depth := by
  induction t generalizing depth with
  | table t => rfl
  | naturalJoin left right _ ihl ihr | thetaJoin left right _ _ _ _ ihl ihr =>
    rw [formatAt.eq_def, headline_anonymous]
    simp only [formatAt, anonymous, ihl, ihr]
  | extend source _ _ _ ih | project source _ _ ih | selectRows source _ ih
  | selectColumns source _ ih | renameColumns source _ ih | orderBy source _ _ ih
  | rawStatement source _ _ _ ih | externalTransform source _ _ _ _ _ _ ih =>
    rw [formatAt.eq_def, headline_anonymous]
    simp only [formatAt, anonymous, ih]

@[simp] theorem format_anonymous (t : Tree) : t.anonymous.format = t.format := formatAt_anonymous t 0

end Tree

namespace Pipeline

section Builders

variable (source left right : Tree)

/-- The rule that carries the forgetting through a check: what fails, fails either way. -/
theorem map_anonymous_ite {c : Prop} [Decidable c] (x y : Except Error Tree) :
    Tree.anonymous <$> (if c then x else y) = if c then Tree.anonymous <$> x else Tree.anonymous <$> y :=
  apply_ite ..

theorem map_anonymous_table (name : Text) (columns : List Text) (qualifier : Option Text) :
    Tree.anonymous <$> table name columns qualifier = table name columns qualifier := by
  simp only [table, map_bind, map_pure]
  rfl

theorem map_anonymous_extend (assignments : List Assignment) (partitionBy : List Text)
    (order : List OrderTerm) :
    Tree.anonymous <$> extend source assignments partitionBy order =
      extend source.anonymous assignments partitionBy order := by
  simp only [extend, Tree.schema_anonymous, map_anonymous_ite, map_bind, map_pure]
  rfl

theorem map_anonymous_project (groupBy : List Text) (aggregates : List Assignment) :
    Tree.anonymous <$> project source groupBy aggregates =
      project source.anonymous groupBy aggregates := by
  simp only [project, Tree.schema_anonymous, map_anonymous_ite, map_bind, map_pure]
  rfl

theorem map_anonymous_naturalJoin (type : JoinType) :
    Tree.anonymous <$> naturalJoin left right type =
      naturalJoin left.anonymous right.anonymous type := by
  simp only [naturalJoin, Tree.schema_anonymous, map_anonymous_ite]
  rfl

theorem map_anonymous_thetaJoin (predicate : Expr) (type : JoinType) (suffixes : Suffixes) :
    Tree.anonymous <$> thetaJoin left right predicate type suffixes =
      thetaJoin left.anonymous right.anonymous predicate type suffixes := by
  simp only [thetaJoin, thetaJoinWith, Tree.schema_anonymous, map_bind, map_pure]
  rfl

theorem map_anonymous_selectRows (predicate : Expr) :
    Tree.anonymous <$> selectRows source predicate = selectRows source.anonymous predicate := by
  simp only [selectRows, Tree.schema_anonymous, map_anonymous_ite, map_bind, map_pure]
  rfl

theorem map_anonymous_selectColumns (columns : List Text) :
    Tree.anonymous <$> selectColumns source columns = selectColumns source.anonymous columns := by
  simp only [selectColumns, Tree.schema_anonymous, map_anonymous_ite, map_bind, map_pure]
  rfl

theorem map_anonymous_renameColumns (mapping : List Rename) :
    Tree.anonymous <$> renameColumns source mapping = renameColumns source.anonymous mapping := by
  simp only [renameColumns, Tree.schema_anonymous, map_bind, map_pure]
  rfl

theorem map_anonymous_orderBy (terms : List OrderTerm) (limit : Option Nat) :
    Tree.anonymous <$> orderBy source terms limit = orderBy source.anonymous terms limit := by
  simp only [orderBy, Tree.schema_anonymous, map_anonymous_ite, map_bind, map_pure]
  rfl

theorem map_anonymous_rawStatement (used produced : List Text) (template : Expr) :
    Tree.anonymous <$> rawStatement source used produced template =
      rawStatement source.anonymous used produced template := by
  simp only [rawStatement, Tree.schema_anonymous, map_anonymous_ite, map_bind, map_pure]
  rfl

theorem map_anonymous_externalTransform (used produced : List Text) (transform : Transform)
    (incoming outgoing : Text) (temporary : Bool) :
    Tree.anonymous <$>
        externalTransform source used produced (some transform) incoming outgoing temporary =
      externalTransform source.anonymous used produced (some { transform with tag := [] }) incoming
        outgoing temporary := by
  simp only [externalTransform, requireTransform, Tree.schema_anonymous, map_anonymous_ite, map_bind,
    map_pure]
  rfl

theorem resolve_anonymous (digest : Text → Text) (spec : QuantileSpec) :
    Quantile.resolve digest source.anonymous spec = Quantile.resolve digest source spec := by
  simp only [Quantile.resolve, Quantile.stagingStem, Quantile.stagingKey, Tree.format_anonymous,
    Tree.schema_anonymous]

theorem map_anonymous_quantile (digest : Text → Text) (tag : Text) (spec : QuantileSpec) :
    Tree.anonymous <$> quantile digest tag source spec =
      quantile digest [] source.anonymous spec := by
  simp only [quantile, resolve_anonymous, Tree.schema_anonymous, map_anonymous_ite, map_bind,
    map_anonymous_externalTransform]

end Builders

end Pipeline

end SqlPipeline
