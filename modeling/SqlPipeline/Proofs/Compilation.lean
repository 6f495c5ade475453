import SqlPipeline.Proofs.Rendering

/-!
# How compiling goes

Compiling a tree numbers subqueries and collects stages, and it stops at the first
thing that the dialect cannot do. Where it does not stop, the query and the progress
after it are given by the tree and by the progress before it. `Sql.Compiled` says how,
with one rule for each operator; the rule of a choice of columns right over an ordering
is the only one that looks at two operators at once.

An argument about the queries of a tree is then an induction over these rules, which
`compiled_of_run` reads off from a run. Most operators have one of two shapes: one query
under a SELECT or a template, or two queries side by side. What such a run has done is
said for the shape.
-/

namespace SqlPipeline.Sql

/-! ## Success of a step of compiling -/

section Run

variable {α β : Type} {s s' : Progress} {q : Query}

theorem run_bind_ok {x : Compile α} {next : α → Compile β} {b : β}
    (h : (x >>= next).run s = .ok (b, s')) :
    ∃ a s₁, x.run s = .ok (a, s₁) ∧ (next a).run s₁ = .ok (b, s') := by
  rw [StateT.run_bind] at h
  obtain ⟨⟨a, s₁⟩, hx, hnext⟩ := bind_ok_iff.mp h
  exact ⟨a, s₁, hx, hnext⟩

theorem run_lift_ok {x : Except Error α} {a : α} (h : (liftM x : Compile α).run s = .ok (a, s')) :
    x = .ok a ∧ s' = s := by
  cases x with
  | error e => cases h
  | ok b =>
    cases h
    exact ⟨rfl, rfl⟩

theorem run_pure_ok {a b : α} (h : (pure a : Compile α).run s = .ok (b, s')) : b = a ∧ s' = s := by
  cases h
  exact ⟨rfl, rfl⟩

theorem run_freshAlias_ok {n : Nat} (h : freshAlias.run s = .ok (n, s')) :
    n = s.aliases + 1 ∧ s' = ⟨s.aliases + 1, s.stages⟩ := by
  cases h
  exact ⟨rfl, rfl⟩

/-- A subquery is finished and gets the next number. -/
theorem run_subquery_ok {x : Compile α} {next : α → Nat → Compile β} {b : β}
    (h : (do let a ← x; let n ← freshAlias; next a n).run s = .ok (b, s')) :
    ∃ a s₁, x.run s = .ok (a, s₁) ∧
      (next a (s₁.aliases + 1)).run ⟨s₁.aliases + 1, s₁.stages⟩ = .ok (b, s') := by
  obtain ⟨a, s₁, hx, hnext⟩ := run_bind_ok h
  obtain ⟨n, s₂, hn, hrest⟩ := run_bind_ok hnext
  obtain ⟨rfl, rfl⟩ := run_freshAlias_ok hn
  exact ⟨a, s₁, hx, hrest⟩

/-- One query becomes the subquery of another. -/
theorem run_under_ok {x : Compile Query} {make : Query → Nat → Query}
    (h : (do let p ← x; let n ← freshAlias; return make p n : Compile Query).run s =
      .ok (q, s')) :
    ∃ p s₁, x.run s = .ok (p, s₁) ∧ q = make p (s₁.aliases + 1) ∧
      s' = ⟨s₁.aliases + 1, s₁.stages⟩ := by
  obtain ⟨p, s₁, hx, hrest⟩ := run_subquery_ok h
  exact ⟨p, s₁, hx, run_pure_ok hrest⟩

/-- One query becomes the subquery of another, which has an expression. -/
theorem run_under_term_ok {x : Compile Query} {resolve : Text → Ref} {e : Expr}
    {make : Query → Nat → Term → Query}
    (h : (do
      let p ← x
      let n ← freshAlias
      let t ← resolveExpr resolve e
      return make p n t : Compile Query).run s = .ok (q, s')) :
    ∃ p s₁, x.run s = .ok (p, s₁) ∧ q = make p (s₁.aliases + 1) (resolved resolve e) ∧
      s' = ⟨s₁.aliases + 1, s₁.stages⟩ := by
  obtain ⟨p, s₁, hx, hnext⟩ := run_subquery_ok h
  obtain ⟨t, s₂, hlift, hrest⟩ := run_bind_ok hnext
  obtain ⟨ht, rfl⟩ := run_lift_ok hlift
  rw [← resolveExpr_ok ht]
  exact ⟨p, s₁, hx, run_pure_ok hrest⟩

/-- Two queries become the sides of a join, once it is known to be supported. -/
theorem run_sides_ok {check : Except Error Unit} {x y : Compile Query}
    {next : Query → Nat → Query → Nat → Compile Query}
    (h : (do
      check
      let l ← x
      let n ← freshAlias
      let r ← y
      let m ← freshAlias
      next l n r m : Compile Query).run s = .ok (q, s')) :
    ∃ l s₁ r s₂, x.run s = .ok (l, s₁) ∧ y.run ⟨s₁.aliases + 1, s₁.stages⟩ = .ok (r, s₂) ∧
      (next l (s₁.aliases + 1) r (s₂.aliases + 1)).run ⟨s₂.aliases + 1, s₂.stages⟩ =
        .ok (q, s') := by
  obtain ⟨u, s₀, hlift, hnext⟩ := run_bind_ok h
  obtain ⟨-, rfl⟩ := run_lift_ok hlift
  obtain ⟨l, s₁, hl, hnext⟩ := run_subquery_ok hnext
  obtain ⟨r, s₂, hr, hrest⟩ := run_subquery_ok hnext
  exact ⟨l, s₁, r, s₂, hl, hr, hrest⟩

end Run

/-! ## Lists of items and new tables -/

theorem stageItems_ok {window : Option Window} {stage : List Assignment} {columns : List Text}
    {items : List Item} (h : stageItems window stage columns = .ok items) :
    items = columns.map (stageItem window stage) := by
  induction columns generalizing items with
  | nil => exact (Except.ok.inj h).symm
  | cons name rest ih =>
    rw [stageItems] at h
    -- whatever item comes first, the others are made by the same steps
    have hrest : ∀ item, (do let items ← stageItems window stage rest; pure (item :: items)) =
        .ok items → items = item :: rest.map (stageItem window stage) := by
      intro item hi
      obtain ⟨others, hothers, hi⟩ := bind_ok_iff.mp hi
      rw [pure_ok_iff] at hi
      rw [hi, ih hothers]
    rw [List.map_cons, stageItem]
    cases hfind : stage.find? fun a => a.target == name with
    | some a =>
      simp only [hfind] at h
      obtain ⟨t, ht, hitem⟩ := bind_ok_iff.mp h
      rw [hrest _ hitem, resolveExpr_ok ht]
    | none =>
      simp only [hfind] at h
      exact hrest _ h

theorem aggregateItems_ok {as : List Assignment} {items : List Item}
    (h : aggregateItems as = .ok items) : items = as.map Query.aggregateItem := by
  induction as generalizing items with
  | nil => exact (Except.ok.inj h).symm
  | cons a rest ih =>
    rw [aggregateItems] at h
    obtain ⟨t, ht, hnext⟩ := bind_ok_iff.mp h
    obtain ⟨others, hothers, hitems⟩ := bind_ok_iff.mp hnext
    rw [pure_ok_iff] at hitems
    rw [hitems, resolveExpr_ok ht, ih hothers]
    rfl

/-- The incoming table is temporary if that is asked for and there are temporary tables. -/
theorem resolve_ok {d : Dialect} {requester : Requester} {table : Text} {temporary : Bool}
    {creation : Creation} (h : Creation.resolve d requester table temporary = .ok creation) :
    creation = ⟨table, temporary && d.temporaryTables⟩ := by
  unfold Creation.resolve at h
  split at h
  · cases h
  · split at h
    · rename_i htemporary
      split at h
      · cases h
        simp_all
      · cases h
    · rename_i hplain
      cases h
      cases temporary <;> simp_all

/-! ## The SELECTs of a batch -/

/-- The progress after one more subquery has got its number. -/
def Progress.next (s : Progress) : Progress := ⟨s.aliases + 1, s.stages⟩

/-- The SELECTs of a batch over a query that puts out `columns`, one for each stage; the numbers up to `n`
are taken. -/
def layers (window : Option Window) (final : List Text) :
    List (List Assignment) → List Text → Query → Nat → Query
  | [], _, q, _ => q
  | stage :: rest, columns, q, n =>
    let columns :=
      if rest.isEmpty then final else Text.appendNew columns (stage.map Assignment.target)
    layers window final rest columns
      (.select (columns.map (stageItem window stage)) q (n + 1) .empty) (n + 1)

section Layers

variable {window : Option Window} {final columns : List Text} {stages : List (List Assignment)}
  {q q' : Query} {s s' : Progress}

/-- The last SELECT of a batch lists the columns in their final order. -/
theorem output_layers (hne : stages ≠ []) (n : Nat) :
    (layers window final stages columns q n).output = final := by
  induction stages generalizing columns q n with
  | nil => exact absurd rfl hne
  | cons stage rest ih =>
    cases rest with
    | nil => exact output_columns (output_stageItem window stage) final
    | cons next others => exact ih (List.cons_ne_nil _ _) _

/-- Compiling the stages of a batch puts their SELECTs on top of each other. -/
theorem compileStages_ok
    (h : (compileStages window final stages columns q).run s = .ok (q', s')) :
    q' = layers window final stages columns q s.aliases ∧
      s' = ⟨s.aliases + stages.length, s.stages⟩ := by
  induction stages generalizing columns q s with
  | nil => exact run_pure_ok h
  | cons stage rest ih =>
    rw [compileStages] at h
    obtain ⟨items, s₁, hlift, hnext⟩ := run_bind_ok h
    obtain ⟨hitems, rfl⟩ := run_lift_ok hlift
    obtain ⟨scope, s₂, hscope, hrest⟩ := run_bind_ok hnext
    obtain ⟨rfl, rfl⟩ := run_freshAlias_ok hscope
    rw [stageItems_ok hitems] at hrest
    -- each stage takes one number, in the order in which they run
    obtain ⟨hq, hs⟩ := ih hrest
    refine ⟨hq, hs.trans ?_⟩
    rw [List.length_cons, Nat.add_assoc, Nat.add_comm 1]

end Layers

/-! ## All operators -/

/-- Compiling the tree goes from the first progress to the second and gives the query. -/
inductive Compiled (d : Dialect) (limit : Option Nat) : Tree → Progress → Query → Progress → Prop where
  | table (t : Table) (s : Progress) :
      Compiled d limit (.table t) s (.read t.columns t.qualifier t.name limit) s
  | extend {source : Tree} {as : List Assignment} {partitionBy : List Text} {order : List OrderTerm}
      {s s₁ : Progress} {q : Query} :
      Compiled d limit source s q s₁ →
      Compiled d limit (.extend source as partitionBy order) s
        (layers (windowOf partitionBy order)
          (Text.appendNew source.schema (as.map Assignment.target)) (stagesOf source.schema as)
          source.schema q s₁.aliases)
        ⟨s₁.aliases + (stagesOf source.schema as).length, s₁.stages⟩
  | project {source : Tree} {groupBy : List Text} {aggregates : List Assignment} {s s₁ : Progress}
      {q : Query} :
      Compiled d limit source s q s₁ →
      Compiled d limit (.project source groupBy aggregates) s
        (.select (groupBy.map Item.plain ++ aggregates.map Query.aggregateItem) q (s₁.aliases + 1)
          ⟨none, groupBy, [], none⟩)
        s₁.next
  | naturalJoin {left right : Tree} {type : JoinType} {s s₁ s₂ : Progress} {l r : Query} :
      Compiled d limit left s l s₁ → Compiled d limit right s₁.next r s₂ →
      Compiled d limit (.naturalJoin left right type) s
        (.join
          ((naturalColumns left.schema right.schema).map
            (naturalItem type left.schema (sharedColumns left.schema right.schema) (s₁.aliases + 1)
              (s₂.aliases + 1)))
          type l (s₁.aliases + 1) r (s₂.aliases + 1)
          (.keys (sharedColumns left.schema right.schema)))
        s₂.next
  | thetaJoin {left right : Tree} {predicate : Expr} {type : JoinType} {suffixes : Suffixes}
      {collisions : List Text} {s s₁ s₂ : Progress} {l r : Query} {columns : List JoinColumn} :
      Compiled d limit left s l s₁ → Compiled d limit right s₁.next r s₂ →
      columns = joinColumns left.schema right.schema collisions suffixes →
      Compiled d limit (.thetaJoin left right predicate type suffixes collisions) s
        (.join (columns.map (joinItem (s₁.aliases + 1) (s₂.aliases + 1))) type l (s₁.aliases + 1) r
          (s₂.aliases + 1)
          (.predicate (resolved (resolveJoin (s₁.aliases + 1) (s₂.aliases + 1) columns) predicate)))
        s₂.next
  | selectRows {source : Tree} {predicate : Expr} {s s₁ : Progress} {q : Query} :
      Compiled d limit source s q s₁ →
      Compiled d limit (.selectRows source predicate) s
        (.select (source.schema.map Item.plain) q (s₁.aliases + 1)
          ⟨some (resolved .bare predicate), [], [], none⟩)
        s₁.next
  | ordered {source : Tree} {terms : List OrderTerm} {n : Option Nat} {columns : List Text}
      {s s₁ : Progress} {q : Query} :
      Compiled d limit source s q s₁ →
      Compiled d limit (.selectColumns (.orderBy source terms n) columns) s
        (.select (columns.map Item.plain) q (s₁.aliases + 1) ⟨none, [], terms, n⟩) s₁.next
  | selectColumns {source : Tree} {columns : List Text} {s s₁ : Progress} {q : Query} :
      source.kind ≠ .orderBy → Compiled d limit source s q s₁ →
      Compiled d limit (.selectColumns source columns) s
        (.select (columns.map Item.plain) q (s₁.aliases + 1) .empty) s₁.next
  | renameColumns {source : Tree} {mapping : List Rename} {s s₁ : Progress} {q : Query} :
      Compiled d limit source s q s₁ →
      Compiled d limit (.renameColumns source mapping) s
        (.select (source.schema.map (renameItem mapping)) q (s₁.aliases + 1) .empty) s₁.next
  | orderBy {source : Tree} {terms : List OrderTerm} {n : Option Nat} {s s₁ : Progress} {q : Query} :
      Compiled d limit source s q s₁ →
      Compiled d limit (.orderBy source terms n) s
        (.select (source.schema.map Item.plain) q (s₁.aliases + 1) ⟨none, [], terms, n⟩) s₁.next
  | rawStatement {source : Tree} {used produced : List Text} {template : Expr} {s s₁ : Progress}
      {q : Query} :
      Compiled d limit source s q s₁ →
      Compiled d limit (.rawStatement source used produced template) s
        (.template produced (resolved .bare template) q (s₁.aliases + 1)) s₁.next
  | externalTransform {source : Tree} {used produced : List Text} {transform : Transform}
      {incoming outgoing : Text} {temporary : Bool} {s s₁ : Progress} {q : Query} :
      Compiled d limit source s q s₁ →
      Compiled d limit (.externalTransform source used produced transform incoming outgoing temporary) s
        (.read produced none outgoing none)
        ⟨s₁.aliases, s₁.stages ++
          [⟨⟨incoming, temporary && d.temporaryTables⟩, q, outgoing, transform⟩]⟩

section

variable {d : Dialect} {limit : Option Nat} {t : Tree} {q : Query} {s s' : Progress}

/-- An extension compiles its input and then its batch. A dialect that lacks windows can only fail
here. -/
theorem compile_extend_ok {source : Tree} {as : List Assignment} {partitionBy : List Text}
    {order : List OrderTerm}
    (h : (compile d limit (.extend source as partitionBy order)).run s = .ok (q, s')) :
    ∃ query s₁, (compile d limit source).run s = .ok (query, s₁) ∧
      q = layers (windowOf partitionBy order)
        (Text.appendNew source.schema (as.map Assignment.target)) (stagesOf source.schema as)
        source.schema query s₁.aliases ∧
      s' = ⟨s₁.aliases + (stagesOf source.schema as).length, s₁.stages⟩ := by
  rw [compile] at h
  obtain ⟨query, s₁, hsource, hstages⟩ : ∃ query s₁, (compile d limit source).run s = .ok (query, s₁) ∧
      (compileStages (windowOf partitionBy order)
        (Text.appendNew source.schema (as.map Assignment.target)) (stagesOf source.schema as)
        source.schema query).run s₁ = .ok (q, s') := by
    -- the check for windows has no result, so both branches go on alike
    by_cases hwindow : (windowOf partitionBy order).isSome = true
    · simp only [hwindow, if_true] at h
      obtain ⟨u, s₁, hlift, hnext⟩ := run_bind_ok h
      obtain ⟨-, rfl⟩ := run_lift_ok hlift
      exact run_bind_ok hnext
    · simp only [hwindow] at h
      exact run_bind_ok h
  exact ⟨query, s₁, hsource, compileStages_ok hstages⟩

/-- Delegated work compiles its input and leaves it as a stage. -/
theorem compile_externalTransform_ok {source : Tree} {used produced : List Text}
    {transform : Transform} {incoming outgoing : Text} {temporary : Bool}
    (h : (compile d limit
      (.externalTransform source used produced transform incoming outgoing temporary)).run s =
        .ok (q, s')) :
    ∃ query s₁, (compile d limit source).run s = .ok (query, s₁) ∧
      q = .read produced none outgoing none ∧
      s' = ⟨s₁.aliases, s₁.stages ++
        [⟨⟨incoming, temporary && d.temporaryTables⟩, query, outgoing, transform⟩]⟩ := by
  rw [compile] at h
  obtain ⟨query, s₁, hsource, hresolve⟩ := run_bind_ok h
  obtain ⟨creation, s₂, hlift, hstage⟩ := run_bind_ok hresolve
  obtain ⟨hcreation, rfl⟩ := run_lift_ok hlift
  obtain ⟨u, s₃, hadd, hrest⟩ := run_bind_ok hstage
  obtain ⟨rfl, rfl⟩ := run_pure_ok hrest
  -- adding a stage always succeeds and is the only step that changes the stages
  cases hadd
  rw [resolve_ok hcreation]
  exact ⟨query, s₂, hsource, rfl, rfl⟩

/-- **A run of compiling follows the rules.** -/
theorem compiled_of_run (h : (compile d limit t).run s = .ok (q, s')) : Compiled d limit t s q s' := by
  induction t using compile_induction generalizing s q s' with
  | table t =>
    obtain ⟨rfl, rfl⟩ := run_pure_ok h
    exact .table t s'
  | extend source as partitionBy order ih =>
    obtain ⟨query, s₁, hsource, rfl, rfl⟩ := compile_extend_ok h
    exact .extend (ih hsource)
  | project source groupBy aggregates ih =>
    -- the aggregates are looked at before the input is compiled
    rw [compile] at h
    obtain ⟨items, s₁, hlift, hnext⟩ := run_bind_ok h
    obtain ⟨hitems, rfl⟩ := run_lift_ok hlift
    obtain ⟨query, s₂, hsource, rfl, rfl⟩ := run_under_ok hnext
    rw [aggregateItems_ok hitems]
    exact .project (ih hsource)
  | naturalJoin left right type ihl ihr =>
    rw [compile] at h
    obtain ⟨l, s₁, r, s₂, hleft, hright, hrest⟩ := run_sides_ok h
    obtain ⟨rfl, rfl⟩ := run_pure_ok hrest
    exact .naturalJoin (ihl hleft) (ihr hright)
  | thetaJoin left right predicate type suffixes collisions ihl ihr =>
    rw [compile] at h
    obtain ⟨l, s₁, r, s₂, hleft, hright, hnext⟩ := run_sides_ok h
    obtain ⟨on, s₃, hlift, hrest⟩ := run_bind_ok hnext
    obtain ⟨hon, rfl⟩ := run_lift_ok hlift
    obtain ⟨rfl, rfl⟩ := run_pure_ok hrest
    rw [resolveExpr_ok hon]
    exact .thetaJoin (ihl hleft) (ihr hright) rfl
  | selectRows source predicate ih =>
    rw [compile] at h
    obtain ⟨query, s₁, hsource, rfl, rfl⟩ := run_under_term_ok h
    exact .selectRows (ih hsource)
  | ordered source terms n columns ih =>
    rw [compile] at h
    obtain ⟨query, s₁, hsource, rfl, rfl⟩ := run_under_ok h
    exact .ordered (ih hsource)
  | selectColumns source columns hkind ih =>
    rw [compile_selectColumns d limit hkind] at h
    obtain ⟨query, s₁, hsource, rfl, rfl⟩ := run_under_ok h
    exact .selectColumns hkind (ih hsource)
  | renameColumns source mapping ih =>
    rw [compile] at h
    obtain ⟨query, s₁, hsource, rfl, rfl⟩ := run_under_ok h
    exact .renameColumns (ih hsource)
  | orderBy source terms n ih =>
    rw [compile] at h
    obtain ⟨query, s₁, hsource, rfl, rfl⟩ := run_under_ok h
    exact .orderBy (ih hsource)
  | rawStatement source used produced template ih =>
    rw [compile] at h
    obtain ⟨query, s₁, hsource, rfl, rfl⟩ := run_under_term_ok h
    exact .rawStatement (ih hsource)
  | externalTransform source used produced transform incoming outgoing temporary ih =>
    obtain ⟨query, s₁, hsource, rfl, rfl⟩ := compile_externalTransform_ok h
    exact .externalTransform (ih hsource)

end

end SqlPipeline.Sql
