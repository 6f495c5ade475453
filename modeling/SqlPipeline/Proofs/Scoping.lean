import SqlPipeline.Proofs.Builders
import SqlPipeline.Proofs.Compilation
import SqlPipeline.Proofs.Sources

/-!
# Statements are well scoped

A database reads a statement from the inside out: a SELECT may name the columns of
what stands in its FROM clause, and nothing else. `Query.InScope` says this of all the
SELECTs of a query. Over one relation a column is named as it is; over two, every
column is named through one of the two aliases, and the subquery under that alias
puts it out. At the bottom are tables, and what is named there has to be among the
columns that the table is known to have.

The operators take the names for a SELECT from the columns of their inputs, as the
tree gives them, and not from the queries that they select from. So the argument has to
know, for every node, that its query puts out the columns of the node, in order.
`Tree.selects` lists the columns of all the SELECTs of a tree's statement.

Aliases come from one counter that runs through all the statements of a plan.
`Sql.Numbered` says which numbers a part of the plan has used: a block without gaps,
each of them once.
-/

namespace SqlPipeline

namespace Sql

/-! ## Scopes -/

/-- The columns that the value of an item refers to, those of its window too. -/
def Item.refs (i : Item) : List Ref :=
  match i.value with
  | .column r => [r]
  | .computed term window =>
    term.refs ++ (window.elim [] fun w => windowColumns w.partitionBy w.orderBy).map .bare
  | .aggregate term => term.refs
  | .coalesce left right => [left, right]

/-- The columns that the clauses after FROM refer to. -/
def Clauses.refs (c : Clauses) : List Ref :=
  c.filter.elim [] Term.refs ++ (c.groupBy ++ c.orderBy.map OrderTerm.column).map .bare

/-- The columns that the condition of a join refers to. -/
def Condition.refs (left right : Nat) : Condition → List Ref
  | keys names => names.flatMap fun name => [.through left name, .through right name]
  | predicate term => term.refs

/-- A column of the one relation in the FROM clause, by its name alone. -/
def Ref.Within (columns : List Text) (r : Ref) : Prop := ∃ name ∈ columns, r = .bare name

/-- A column of the relation under an alias. -/
def Ref.Under (scope : Nat) (columns : List Text) (r : Ref) : Prop :=
  ∃ name ∈ columns, r = .through scope name

namespace Query

/-- **Every SELECT names only what its FROM clause offers**, and tables are read for columns that they are
known to have. What a template says around its subquery is left to whoever wrote it. -/
def InScope (known : List Table) : Query → Prop
  | read columns qualifier table _ =>
    ∃ t ∈ known, t.qualifier = qualifier ∧ t.name = table ∧ ∀ name ∈ columns, name ∈ t.columns
  | select items source _ clauses =>
    source.InScope known ∧ (∀ item ∈ items, ∀ r ∈ item.refs, r.Within source.output) ∧
      ∀ r ∈ clauses.refs, r.Within source.output
  | join items _ left leftAlias right rightAlias on =>
    left.InScope known ∧ right.InScope known ∧
      (∀ item ∈ items, ∀ r ∈ item.refs,
        r.Under leftAlias left.output ∨ r.Under rightAlias right.output) ∧
      ∀ r ∈ on.refs leftAlias rightAlias, r.Under leftAlias left.output ∨ r.Under rightAlias right.output
  | template _ _ source _ => source.InScope known

/-- The columns that the SELECTs of a query put out, inner ones first and left before right. A template
puts out the columns that it is said to. -/
def outputs : Query → List (List Text)
  | read columns .. => [columns]
  | select items source .. => source.outputs ++ [items.map Item.output]
  | join items _ left _ right .. => left.outputs ++ right.outputs ++ [items.map Item.output]
  | template columns _ source _ => source.outputs ++ [columns]

end Query

end Sql

/-- The columns after each stage of a batch but the last: those there were, and what was assigned so far. -/
def columnsBetween (columns : List Text) (stages : List (List Assignment)) : List (List Text) :=
  (List.range (stages.length - 1)).map fun i =>
    Text.appendNew columns ((stages.take (i + 1)).flatten.map Assignment.target)

namespace Tree

/-- The columns that the SELECTs of a tree's statement are to put out, inner ones first and left before
right: those of the nodes in the same order. A batch has a SELECT for each of its stages, and an ordering
right below a choice of columns has none of its own. -/
def selects : Tree → List (List Text)
  | table t => [t.columns]
  | extend source assignments _ _ =>
    source.selects ++ columnsBetween source.schema (stagesOf source.schema assignments) ++
      [Text.appendNew source.schema (assignments.map Assignment.target)]
  | project source groupBy aggregates =>
    source.selects ++ [groupBy ++ aggregates.map Assignment.target]
  | naturalJoin left right _ =>
    left.selects ++ right.selects ++ [naturalColumns left.schema right.schema]
  | thetaJoin left right _ _ suffixes collisions =>
    left.selects ++ right.selects ++
      [(joinColumns left.schema right.schema collisions suffixes).map JoinColumn.output]
  | selectColumns (orderBy source _ _) columns => source.selects ++ [columns]
  | selectColumns source columns => source.selects ++ [columns]
  | renameColumns source mapping => source.selects ++ [source.schema.map (renamed mapping)]
  | selectRows source _ | orderBy source _ _ => source.selects ++ [source.schema]
  | rawStatement source _ produced _ => source.selects ++ [produced]
  | externalTransform _ _ produced _ _ _ _ => [produced]

/-- The tables that are known when the statements of a tree run: those that the tree describes, and the
outgoing tables of its work with the columns that the work is said to produce. -/
def described (t : Tree) : List Table :=
  t.tables ++ t.delegations.map fun work => ⟨work.outgoing, work.produced, none⟩

end Tree

/-! ## Numbers of subqueries -/

namespace Sql

/-- Between the two points of compiling, the numbers that were free have been given away without a gap and
each of them once: some to the stages that were added, and the others are those listed. -/
def Numbered (s : Progress) (numbers : List Nat) (s' : Progress) : Prop :=
  ∃ made n, s' = ⟨s.aliases + n, s.stages ++ made⟩ ∧
    (made.flatMap (fun stage => stage.query.aliases) ++ numbers).Perm (List.range' (s.aliases + 1) n)

namespace Numbered

variable {s s₁ s' : Progress} {numbers others : List Nat}

/-- A block of numbers is given away and nothing else happens. -/
theorem block (s : Progress) (n : Nat) :
    Numbered s (List.range' (s.aliases + 1) n) ⟨s.aliases + n, s.stages⟩ :=
  ⟨[], n, by rw [List.append_nil], .refl _⟩

theorem next (s : Progress) : Numbered s [s.aliases + 1] s.next := block s 1

theorem trans (h : Numbered s numbers s₁) (h' : Numbered s₁ others s') :
    Numbered s (numbers ++ others) s' := by
  obtain ⟨made, n, rfl, hp⟩ := h
  obtain ⟨made', m, rfl, hp'⟩ := h'
  refine ⟨made ++ made', n + m, by rw [Nat.add_assoc, List.append_assoc], ?_⟩
  rw [List.flatMap_append, ← List.range'_append_1, Nat.add_right_comm]
  refine List.Perm.trans ?_ (hp.append hp')
  -- the stages added later stand between the stages and the numbers of the first part
  simp only [List.append_assoc]
  refine List.Perm.append_left _ ?_
  rw [← List.append_assoc, ← List.append_assoc]
  exact List.perm_append_comm.append_right _

/-- The numbers of a query that becomes a stage are then those of a stage. -/
theorem staged {stage : Stage} (h : Numbered s stage.query.aliases s₁) :
    Numbered s [] ⟨s₁.aliases, s₁.stages ++ [stage]⟩ := by
  obtain ⟨made, n, rfl, hp⟩ := h
  refine ⟨made ++ [stage], n, by rw [List.append_assoc], ?_⟩
  simpa using hp

end Numbered

theorem aliases_layers (window : Option Window) (final : List Text) (stages : List (List Assignment))
    (columns : List Text) (q : Query) (n : Nat) :
    (layers window final stages columns q n).aliases =
      q.aliases ++ List.range' (n + 1) stages.length := by
  induction stages generalizing columns q n with
  | nil => exact (List.append_nil _).symm
  | cons stage rest ih =>
    rw [layers, ih, Query.aliases, List.length_cons, List.range'_succ, List.append_assoc,
      List.singleton_append]

/-- **Compiling gives each number once.** -/
theorem Compiled.numbered {d : Dialect} {limit : Option Nat} {t : Tree} {s s' : Progress} {q : Query}
    (h : Compiled d limit t s q s') : Numbered s q.aliases s' := by
  induction h with
  | table t s => exact .block s 0
  | extend _ ih =>
    rw [aliases_layers]
    exact ih.trans (.block _ _)
  | naturalJoin _ _ ihl ihr | thetaJoin _ _ _ ihl ihr =>
    exact ((ihl.trans (.next _)).trans ihr).trans (.next _)
  | externalTransform _ ih => exact ih.staged
  | project _ ih | selectRows _ ih | ordered _ ih | selectColumns _ _ ih | renameColumns _ ih
  | orderBy _ ih | rawStatement _ ih => exact ih.trans (.next _)

/-- Different numbers give different names. -/
theorem aliasName_injective : Function.Injective aliasName := by
  intro n m h
  have hdigits : Text.ofNat n = Text.ofNat m := List.append_cancel_left h
  rw [← Text.toNat_ofNat n, hdigits, Text.toNat_ofNat]

/-! ## Select lists over one relation -/

section Within

variable {columns : List Text}

theorem within_bare {names : List Text} (h : ∀ name ∈ names, name ∈ columns) :
    ∀ r ∈ names.map Ref.bare, r.Within columns := by
  intro r hr
  obtain ⟨name, hn, rfl⟩ := List.mem_map.mp hr
  exact ⟨name, h name hn, rfl⟩

theorem within_single {name : Text} (h : name ∈ columns) : ∀ r ∈ [Ref.bare name], r.Within columns := by
  intro r hr
  exact ⟨name, h, List.mem_singleton.mp hr⟩

theorem within_resolved {e : Expr} (h : ∀ name ∈ e.columns, name ∈ columns) :
    ∀ r ∈ (resolved .bare e).refs, r.Within columns := by
  rw [refs_resolved]
  exact within_bare fun name hn => h name (mem_columns_of_mem_gapsOf hn)

theorem within_plain {names : List Text} (h : ∀ name ∈ names, name ∈ columns) :
    ∀ item ∈ names.map Item.plain, ∀ r ∈ item.refs, r.Within columns := by
  intro item hi
  obtain ⟨name, hn, rfl⟩ := List.mem_map.mp hi
  exact within_single (h name hn)

/-- The clauses of a grouping or an ordering. -/
theorem within_clauses {groups : List Text} {terms : List OrderTerm} {limit : Option Nat}
    (hg : ∀ name ∈ groups, name ∈ columns) (ht : ∀ name ∈ terms.map OrderTerm.column, name ∈ columns) :
    ∀ r ∈ Clauses.refs ⟨none, groups, terms, limit⟩, r.Within columns :=
  within_bare fun name hn => (List.mem_append.mp hn).elim (hg name) (ht name)

/-- The clause of a choice of rows. -/
theorem within_filter {e : Expr} (h : ∀ name ∈ e.columns, name ∈ columns) :
    ∀ r ∈ Clauses.refs ⟨some (resolved .bare e), [], [], none⟩, r.Within columns := by
  intro r hr
  rcases List.mem_append.mp hr with hr | hr
  · exact within_resolved h r hr
  · cases hr

/-- Without clauses there is nothing to look up. -/
theorem within_empty : ∀ r ∈ Clauses.empty.refs, r.Within columns :=
  within_clauses (by simp) (by simp)

/-- An item of a stage reads its assignment's columns and the window's, or it passes a column on. -/
theorem within_stageItem {window : Option Window} {stage : List Assignment} {name : Text}
    (hw : ∀ name ∈ window.elim [] (fun w => windowColumns w.partitionBy w.orderBy), name ∈ columns)
    (hreads : ∀ a ∈ stage, ∀ name ∈ a.reads, name ∈ columns)
    (hname : name ∈ columns ∨ name ∈ stage.map Assignment.target) :
    ∀ r ∈ (stageItem window stage name).refs, r.Within columns := by
  unfold stageItem
  cases hfind : stage.find? fun a => a.target == name with
  | some a =>
    intro r hr
    rcases List.mem_append.mp hr with hr | hr
    · exact within_resolved (hreads a (List.mem_of_find?_eq_some hfind)) r hr
    · exact within_bare hw r hr
  | none =>
    -- a name with no assignment in the stage is not a target, so it is passed on
    have hmem : name ∈ columns := by
      refine hname.resolve_right fun htarget => ?_
      obtain ⟨a, ha, rfl⟩ := List.mem_map.mp htarget
      exact List.find?_eq_none.mp hfind a ha (beq_self_eq_true a.target)
    exact within_single hmem

end Within

end Sql

/-! ## Stages see what they read -/

/-- Each assignment of a stage reads visible columns or targets of earlier stages. -/
def StagesReady : List Text → List (List Assignment) → Prop
  | _, [] => True
  | visible, stage :: rest =>
    (∀ a ∈ stage, ∀ name ∈ a.reads, name ∈ visible) ∧
      StagesReady (visible ++ stage.map Assignment.target) rest

theorem StagesReady.mono {visible visible' : List Text} {stages : List (List Assignment)}
    (h : StagesReady visible stages) (hs : ∀ name ∈ visible, name ∈ visible') :
    StagesReady visible' stages := by
  induction stages generalizing visible visible' with
  | nil => trivial
  | cons stage rest ih =>
    refine ⟨fun a ha name hn => hs name (h.1 a ha name hn), ih h.2 fun name hn => ?_⟩
    rcases List.mem_append.mp hn with hn | hn
    · exact List.mem_append_left _ (hs name hn)
    · exact List.mem_append_right _ hn

/-- What a pass places reads available columns. -/
theorem Partition.reads_pass (available : List Text) (as placed left : List Assignment)
    (h : ∀ a ∈ placed, ∀ name ∈ a.reads, name ∈ available) :
    ∀ a ∈ (pass available placed left as).1, ∀ name ∈ a.reads, name ∈ available := by
  induction as generalizing placed left with
  | nil => exact h
  | cons a rest ih =>
    unfold pass
    split
    · rename_i hf
      refine ih (placed ++ [a]) left fun b hb => ?_
      rcases List.mem_append.mp hb with hb | hb
      · exact h b hb
      · rw [List.mem_singleton.mp hb]
        exact (fits_iff.mp hf).1
    · exact ih placed (left ++ [a]) h

/-- The stages of a batch are ready one after the other. -/
theorem stagesReady_partition {available : List Text} {as : List Assignment}
    {stages : List (List Assignment)} (h : partition available as = .ok stages) :
    StagesReady available stages := by
  induction stages generalizing available as with
  | nil => trivial
  | cons stage rest ih =>
    rcases partition_cases h with ⟨-, he⟩ | ⟨placed, left, rest', hpass, -, hrest, he⟩
    · exact absurd he (by simp)
    · obtain ⟨rfl, rfl⟩ := List.cons.inj he
      have hreads := Partition.reads_pass available as [] [] (by simp)
      rw [hpass] at hreads
      exact ⟨hreads, ih hrest⟩

theorem appendNew_append (names first rest : List Text) :
    Text.appendNew names (first ++ rest) = Text.appendNew (Text.appendNew names first) rest := by
  induction first generalizing names with
  | nil => rfl
  | cons name first ih =>
    rw [List.cons_append, Text.appendNew, Text.appendNew]
    split
    · exact ih _
    · exact ih _

/-- After the first stage of several, the columns are those of the rest over what it leaves. -/
theorem columnsBetween_cons (columns : List Text) (stage next : List Assignment)
    (others : List (List Assignment)) :
    columnsBetween columns (stage :: next :: others) =
      Text.appendNew columns (stage.map Assignment.target) ::
        columnsBetween (Text.appendNew columns (stage.map Assignment.target)) (next :: others) := by
  simp only [columnsBetween, List.length_cons, Nat.add_sub_cancel, List.range_succ_eq_map,
    List.map_cons, List.map_map, List.take_succ_cons, List.take_zero, List.flatten_cons,
    List.flatten_nil, List.map_append, appendNew_append, Function.comp_def, Nat.succ_eq_add_one]
  rfl

namespace Sql

variable {known : List Table} {window : Option Window} {final columns : List Text}
  {stages : List (List Assignment)} {q : Query}

theorem outputs_layers (hne : stages ≠ []) (n : Nat) :
    (layers window final stages columns q n).outputs =
      q.outputs ++ columnsBetween columns stages ++ [final] := by
  induction stages generalizing columns q n with
  | nil => exact absurd rfl hne
  | cons stage rest ih =>
    cases rest with
    | nil =>
      rw [layers, layers, Query.outputs, output_columns (output_stageItem window stage)]
      simp [columnsBetween]
    | cons next others =>
      rw [layers, ih (List.cons_ne_nil _ _), Query.outputs,
        output_columns (output_stageItem window stage), columnsBetween_cons]
      simp only [List.isEmpty_cons, Bool.false_eq_true, if_false, List.append_assoc,
        List.cons_append, List.nil_append]

/-- **The SELECTs of a batch are in scope**: a stage sees the columns of its input and what the stages
before it have assigned, and the last one lists nothing else. -/
theorem inScope_layers (hq : q.InScope known) (hout : q.output = columns)
    (hw : ∀ name ∈ window.elim [] (fun w => windowColumns w.partitionBy w.orderBy), name ∈ columns)
    (hready : StagesReady columns stages)
    (hfinal : ∀ name ∈ final, name ∈ columns ∨ name ∈ stages.flatten.map Assignment.target) (n : Nat) :
    (layers window final stages columns q n).InScope known := by
  induction stages generalizing columns q n with
  | nil => exact hq
  | cons stage rest ih =>
    subst hout
    have hselect : ∀ {names : List Text},
        (∀ name ∈ names, name ∈ q.output ∨ name ∈ stage.map Assignment.target) →
          (Query.select (names.map (stageItem window stage)) q (n + 1) .empty).InScope known := by
      intro names hnames
      refine ⟨hq, fun item hi => ?_, within_empty⟩
      obtain ⟨name, hn, rfl⟩ := List.mem_map.mp hi
      exact within_stageItem hw hready.1 (hnames name hn)
    -- the last layer lists what is wanted, and every other one passes all its columns on
    rw [layers]
    cases rest with
    | nil => exact hselect fun name hn => by simpa using hfinal name hn
    | cons next others =>
      refine ih (hselect fun name hn => mem_appendNew.mp hn)
        (output_columns (output_stageItem window stage) _)
        (fun name hn => mem_appendNew.mpr (Or.inl (hw name hn))) (hready.2.mono fun name hn => ?_)
        (fun name hn => ?_) _
      · exact mem_appendNew.mpr (List.mem_append.mp hn)
      · have hmem := hfinal name hn
        rw [List.flatten_cons, List.map_append, List.mem_append] at hmem
        rw [mem_appendNew]
        exact or_assoc.mpr hmem

/-! ## Every operator -/

/-- The query of a tree is in scope, and its SELECTs put out the columns of the nodes. -/
structure Query.Conforms (known : List Table) (t : Tree) (q : Query) : Prop where
  inScope : q.InScope known
  output : q.output = t.schema
  outputs : q.outputs = t.selects

namespace Query.Conforms

variable {t source left right : Tree} {l r : Query} {items : List Item} {n m : Nat}

/-- A SELECT from the query of the input. -/
theorem select {clauses : Clauses} (h : q.Conforms known source)
    (houtput : items.map Item.output = t.schema) (hselects : t.selects = source.selects ++ [t.schema])
    (hitems : ∀ item ∈ items, ∀ ref ∈ item.refs, ref.Within source.schema)
    (hclauses : ∀ ref ∈ clauses.refs, ref.Within source.schema) :
    (Query.select items q n clauses).Conforms known t := by
  refine ⟨⟨h.inScope, ?_, ?_⟩, houtput, ?_⟩
  · rw [h.output]
    exact hitems
  · rw [h.output]
    exact hclauses
  · rw [Query.outputs, h.outputs, houtput, hselects]

/-- A join of the queries of the inputs. -/
theorem join {type : JoinType} {on : Condition} (hl : l.Conforms known left)
    (hr : r.Conforms known right) (houtput : items.map Item.output = t.schema)
    (hselects : t.selects = left.selects ++ right.selects ++ [t.schema])
    (hitems : ∀ item ∈ items, ∀ ref ∈ item.refs, ref.Under n left.schema ∨ ref.Under m right.schema)
    (hon : ∀ ref ∈ on.refs n m, ref.Under n left.schema ∨ ref.Under m right.schema) :
    (Query.join items type l n r m on).Conforms known t := by
  refine ⟨⟨hl.inScope, hr.inScope, ?_, ?_⟩, houtput, ?_⟩
  · rw [hl.output, hr.output]
    exact hitems
  · rw [hl.output, hr.output]
    exact hon
  · rw [Query.outputs, hl.outputs, hr.outputs, houtput, hselects]

theorem of_extend {as : List Assignment} {partitionBy : List Text} {order : List OrderTerm}
    (hc : ExtendChecks source.schema as partitionBy order) (h : q.Conforms known source) :
    (layers (windowOf partitionBy order) (Text.appendNew source.schema (as.map Assignment.target))
      (stagesOf source.schema as) source.schema q n).Conforms known
        (.extend source as partitionBy order) := by
  obtain ⟨stages, hstages⟩ := partition_of_scoped hc.inScope
  have hperm := partition_perm hstages
  have hof : stagesOf source.schema as = stages := by rw [stagesOf, hstages]
  have hne : stages ≠ [] := by
    intro hnil
    rw [hnil] at hperm
    exact hc.nonempty (List.nil_perm.mp hperm)
  have hwindow : ∀ name ∈ (windowOf partitionBy order).elim []
      (fun w => windowColumns w.partitionBy w.orderBy), name ∈ source.schema := by
    unfold windowOf
    split
    · simp
    · exact hc.window
  rw [hof]
  refine ⟨?_, output_layers hne n, ?_⟩
  · refine inScope_layers h.inScope h.output hwindow (stagesReady_partition hstages) (fun name hn => ?_) n
    -- the stages assign what the batch assigns
    exact (mem_appendNew.mp hn).imp_right (hperm.map Assignment.target).mem_iff.mpr
  · rw [outputs_layers hne, h.outputs, Tree.selects, hof]

theorem of_project {groupBy : List Text} {aggregates : List Assignment}
    (hc : ProjectChecks source.schema groupBy aggregates) (h : q.Conforms known source) :
    (Query.select (groupBy.map Item.plain ++ aggregates.map Query.aggregateItem) q n
      ⟨none, groupBy, [], none⟩).Conforms known (.project source groupBy aggregates) := by
  refine h.select ?_ rfl (fun item hi => ?_) (within_clauses hc.groups (by simp))
  · rw [List.map_append, output_columns output_plain, output_items output_aggregateItem]
    rfl
  · rcases List.mem_append.mp hi with hi | hi
    · exact within_plain hc.groups item hi
    · obtain ⟨a, ha, rfl⟩ := List.mem_map.mp hi
      exact within_resolved (hc.reads a ha)

theorem of_naturalJoin {type : JoinType} (hl : l.Conforms known left) (hr : r.Conforms known right) :
    (Query.join
      ((naturalColumns left.schema right.schema).map
        (naturalItem type left.schema (sharedColumns left.schema right.schema) n m))
      type l n r m (.keys (sharedColumns left.schema right.schema))).Conforms known
        (.naturalJoin left right type) := by
  refine hl.join hr (output_columns (output_naturalItem type _ _ n m) _) rfl ?_ ?_
  · intro item hi ref href
    obtain ⟨name, hn, rfl⟩ := List.mem_map.mp hi
    have hunder : ∀ {scope : Nat} {columns : List Text}, name ∈ columns → ref = .through scope name →
        ref.Under scope columns := fun hmem he => ⟨name, hmem, he⟩
    by_cases hs : name ∈ sharedColumns left.schema right.schema
    · -- a key is there on both sides, whichever of them it is taken from
      obtain ⟨hleft, hright⟩ := mem_sharedColumns.mp hs
      have hsides : ref = .through n name ∨ ref = .through m name := by
        cases type <;> simp_all [naturalItem, Item.refs]
      exact hsides.imp (hunder hleft) (hunder hright)
    · by_cases hleft : name ∈ left.schema
      · exact Or.inl (hunder hleft (by simpa [naturalItem, hs, hleft, Item.refs] using href))
      · have hright := (mem_naturalColumns.mp hn).resolve_left hleft
        exact Or.inr (hunder hright (by simpa [naturalItem, hs, hleft, Item.refs] using href))
  · intro ref href
    obtain ⟨name, hn, href⟩ := List.mem_flatMap.mp href
    obtain ⟨hleft, hright⟩ := mem_sharedColumns.mp hn
    rcases List.mem_pair.mp href with rfl | rfl
    · exact Or.inl ⟨name, hleft, rfl⟩
    · exact Or.inr ⟨name, hright, rfl⟩

/-- A column of a join on a predicate is taken from the side that it comes from. -/
theorem under_joinRef {collisions : List Text} {suffixes : Suffixes} {column : JoinColumn}
    (h : column ∈ joinColumns left.schema right.schema collisions suffixes) :
    (joinRef n m column).Under n left.schema ∨ (joinRef n m column).Under m right.schema := by
  have hinput := (mem_joinColumns.mp h).1
  cases hside : column.fromLeft with
  | true =>
    rw [hside] at hinput
    exact Or.inl ⟨column.input, hinput, by rw [joinRef, hside, if_pos rfl]⟩
  | false =>
    rw [hside] at hinput
    exact Or.inr ⟨column.input, hinput, by rw [joinRef, hside, if_neg Bool.false_ne_true]⟩

theorem of_thetaJoin {predicate : Expr} {type : JoinType} {suffixes : Suffixes} {collisions : List Text}
    (hc : ThetaChecks left.schema right.schema predicate suffixes collisions)
    (hl : l.Conforms known left) (hr : r.Conforms known right) :
    (Query.join
      ((joinColumns left.schema right.schema collisions suffixes).map (joinItem n m)) type l n r m
      (.predicate (resolved
        (resolveJoin n m (joinColumns left.schema right.schema collisions suffixes))
        predicate))).Conforms known (.thetaJoin left right predicate type suffixes collisions) := by
  refine hl.join hr (output_items (output_joinItem n m)) rfl ?_ ?_
  · intro item hi ref href
    obtain ⟨column, hcolumn, rfl⟩ := List.mem_map.mp hi
    rw [List.mem_singleton.mp href]
    exact under_joinRef hcolumn
  · intro ref href
    rw [Condition.refs, refs_resolved] at href
    obtain ⟨name, hn, rfl⟩ := List.mem_map.mp href
    -- the predicate speaks of the columns of the join, so the name is one of them
    obtain ⟨column, hcolumn, rfl⟩ :=
      List.mem_map.mp (hc.reads name (mem_columns_of_mem_gapsOf hn))
    rw [resolveJoin, find?_key_eq_some hc.named.nodup hcolumn]
    exact under_joinRef hcolumn

end Query.Conforms

theorem selects_selectColumns {source : Tree} (h : source.kind ≠ .orderBy) (columns : List Text) :
    (Tree.selectColumns source columns).selects = source.selects ++ [columns] := by
  cases source with
  | orderBy source terms limit => exact absurd rfl h
  | _ => rfl

/-- **The query of a valid tree conforms to it**, if the tables that it reads are known. -/
theorem Compiled.conforms {d : Dialect} {limit : Option Nat} {t : Tree} {s s' : Progress}
    (h : Compiled d limit t s q s') (hv : t.Valid)
    (hk : ∀ r ∈ t.relations, (r.read limit).InScope known) : q.Conforms known t := by
  induction h with
  | table t s => exact ⟨hk _ List.mem_cons_self, rfl, rfl⟩
  | extend _ ih =>
    exact .of_extend hv.checked (ih (hv.input List.mem_cons_self) hk)
  | project _ ih => exact .of_project hv.checked (ih (hv.input List.mem_cons_self) hk)
  | naturalJoin _ _ ihl ihr =>
    exact .of_naturalJoin
      (ihl (hv.input List.mem_cons_self) fun r hr => hk r (List.mem_append_left _ hr))
      (ihr (hv.input (List.mem_cons_of_mem _ List.mem_cons_self))
        fun r hr => hk r (List.mem_append_right _ hr))
  | thetaJoin _ _ hcolumns ihl ihr =>
    subst hcolumns
    exact .of_thetaJoin hv.checked
      (ihl (hv.input List.mem_cons_self) fun r hr => hk r (List.mem_append_left _ hr))
      (ihr (hv.input (List.mem_cons_of_mem _ List.mem_cons_self))
        fun r hr => hk r (List.mem_append_right _ hr))
  | selectRows _ ih =>
    exact (ih (hv.input List.mem_cons_self) hk).select (output_columns output_plain _) rfl
      (within_plain fun _ hn => hn) (within_filter hv.checked.reads)
  | ordered _ ih =>
    -- the terms are columns of what is ordered, whatever is chosen of it
    have hordered : OrderChecks _ _ _ := (hv.input List.mem_cons_self).checked
    exact (ih ((hv.input List.mem_cons_self).input List.mem_cons_self) hk).select
      (output_columns output_plain _) rfl (within_plain hv.checked.known)
      (within_clauses (by simp) hordered.known)
  | selectColumns hkind _ ih =>
    exact (ih (hv.input List.mem_cons_self) hk).select (output_columns output_plain _)
      (selects_selectColumns hkind _) (within_plain hv.checked.known) within_empty
  | renameColumns _ ih =>
    refine (ih (hv.input List.mem_cons_self) hk).select (output_items (Query.output_renameItem _)) rfl
      (fun item hi => ?_) within_empty
    obtain ⟨name, hn, rfl⟩ := List.mem_map.mp hi
    exact within_single hn
  | orderBy _ ih =>
    exact (ih (hv.input List.mem_cons_self) hk).select (output_columns output_plain _) rfl
      (within_plain fun _ hn => hn) (within_clauses (by simp) hv.checked.known)
  | rawStatement _ ih =>
    have hsource := ih (hv.input List.mem_cons_self) hk
    exact ⟨hsource.inScope, rfl, by rw [Query.outputs, hsource.outputs, Tree.selects]⟩
  | externalTransform _ _ => exact ⟨hk _ List.mem_cons_self, rfl, rfl⟩

end Sql

/-! ## Every statement -/

/-- The queries of a plan, that of the root last. -/
def Sql.Plan.queries (plan : Sql.Plan) : List Sql.Query := plan.stages.map Sql.Stage.query ++ [plan.root]

namespace Tree

variable {t T : Tree} {options : GenerateOptions} {work : Delegation}

/-- Work below a valid tree is done on a valid tree. -/
theorem Valid.delegated (h : t.Valid) (hw : work ∈ t.delegations) : work.source.Valid := by
  induction t with
  | table t =>
    rw [delegations_eq rfl] at hw
    cases hw
  | externalTransform source used produced transform incoming outgoing temporary ih =>
    have hsource := h.input List.mem_cons_self
    rw [delegations_externalTransform, List.mem_append, List.mem_singleton] at hw
    rcases hw with hw | rfl
    · exact ih hsource hw
    · exact hsource
  | naturalJoin left right type ihl ihr | thetaJoin left right predicate type suffixes collisions ihl ihr =>
    rw [delegations_eq rfl] at hw
    obtain ⟨c, hc, hbelow⟩ := List.mem_flatMap.mp hw
    have hvalid := h.input hc
    rcases List.mem_pair.mp hc with rfl | rfl
    · exact ihl hvalid hbelow
    · exact ihr hvalid hbelow
  | _ =>
    rename_i ih
    rw [delegations_eq rfl] at hw
    obtain ⟨c, hc, hbelow⟩ := List.mem_flatMap.mp hw
    have hvalid := h.input hc
    obtain rfl := List.mem_singleton.mp hc
    exact ih hvalid hbelow

/-- Outgoing tables are read of work that the tree delegates. -/
theorem mem_delegations_of_mem_readings (h : Relation.outgoing work ∈ t.readings) :
    work ∈ t.delegations := by
  rcases List.mem_append.mp h with h | h
  · obtain ⟨other, hother, h⟩ := List.mem_flatMap.mp h
    obtain ⟨i, hi⟩ := List.mem_iff_getElem?.mp hother
    have hbefore := (ordered_delegations t i other hi).subset (mem_delegations_of_mem_relations h)
    exact List.mem_of_mem_take hbefore
  · exact mem_delegations_of_mem_relations h

/-- **What the statements of a tree read is known**: tables that it describes, for some of their columns,
and the outgoing tables of its work. -/
theorem readings_described (h : t.Valid) (hT : t.prepare options = .ok T) (limit : Option Nat) :
    ∀ r ∈ T.readings, (r.read limit).InScope t.described := by
  intro r hr
  cases r with
  | table part =>
    have hmem : part ∈ T.tables :=
      (readTables_perm T).subset (List.mem_filterMap.mpr ⟨_, hr, rfl⟩)
    obtain ⟨whole, hwhole, hpart⟩ := exists_related_of_mem (prepare_tables h hT) hmem
    exact ⟨whole, List.mem_append_left _ hwhole, hpart.qualifier.symm, hpart.name.symm,
      fun name hn => hpart.columns.subset hn⟩
  | outgoing work =>
    obtain ⟨given, hgiven, source, rfl⟩ :=
      exists_related_of_mem (prepare_delegations h hT) (mem_delegations_of_mem_readings hr)
    exact ⟨_, List.mem_append_right _ (List.mem_map.mpr ⟨given, hgiven, rfl⟩), rfl, rfl,
      fun _ hn => hn⟩

/--
**The statements of a tree are well scoped.**

Let steps come out for a tree that can be built, and let `T` be its prepared form and `plan` the nested
SELECTs that the steps print. The subqueries of all statements together are called by the numbers from
one on, without a gap, and no two of them have the same name. Every SELECT of every statement names only
what its own FROM clause offers: over one subquery its columns, in a join columns of one of the two
subqueries through its alias, and over a table columns that the tree describes it to have. Nothing that a
SELECT lists is out of order: the columns of the SELECTs are, from the inside out, the columns of the nodes
of `T` that they stand for, and between the stages of a batch the columns there were with those assigned
so far.
-/
theorem generate_well_scoped {d : Dialect} {steps : List Step} (h : t.Built)
    (hs : t.generate d options = .ok steps) :
    ∃ T plan m, t.prepare options = .ok T ∧ Sql.plan d options.sourceLimit T = .ok plan ∧
      steps = plan.steps d ∧
      (plan.queries.flatMap Sql.Query.aliases).Perm (List.range' 1 m) ∧
      ((plan.queries.flatMap Sql.Query.aliases).map Sql.aliasName).Nodup ∧
      (∀ q ∈ plan.queries, q.InScope t.described) ∧
      List.Forall₂ (fun work stage => stage.query.outputs = work.source.selects) T.delegations
        plan.stages ∧
      plan.root.outputs = T.selects := by
  obtain ⟨T, hT, -⟩ := bind_ok_iff.mp hs
  obtain ⟨root, progress, hrun, rfl⟩ := (generate_ok_iff hT).mp hs
  have hplan : Sql.plan d options.sourceLimit T = .ok ⟨progress.stages, root⟩ := by
    rw [Sql.plan, hrun]
    rfl
  have hvalid := prepare_valid h.valid hT
  have hknown := readings_described h.valid hT options.sourceLimit
  obtain ⟨-, made, hmade, hstaged⟩ := Sql.compile_emits hrun
  obtain rfl : made = progress.stages := hmade.symm
  have hroot : root.Conforms t.described T :=
    (Sql.compiled_of_run hrun).conforms hvalid fun r hr => hknown r (List.mem_append_right _ hr)
  -- every stage is compiled from the tree below its own delegation
  have hstages : List.Forall₂ (fun work stage => stage.query.Conforms t.described work.source)
      T.delegations progress.stages := by
    refine ((List.forall₂_and_left _ _).mpr ⟨fun work hw => hw, hstaged⟩).imp
      fun work stage hstage => ?_
    obtain ⟨s, s', hcompiled⟩ := hstage.2.compiled
    exact (Sql.compiled_of_run hcompiled).conforms (hvalid.delegated hstage.1) fun r hr =>
      hknown r (List.mem_append_left _ (List.mem_flatMap.mpr ⟨work, hstage.1, hr⟩))
  obtain ⟨made, m, hprogress, hnumbers⟩ := (Sql.compiled_of_run hrun).numbered
  -- the numbers of all queries are those handed out in one run of the compiler
  have haliases : (Sql.Plan.queries ⟨progress.stages, root⟩).flatMap Sql.Query.aliases =
      made.flatMap (fun stage => stage.query.aliases) ++ root.aliases := by
    rw [hprogress, Sql.Plan.queries, List.flatMap_append, List.flatMap_map]
    simp
  refine ⟨T, ⟨progress.stages, root⟩, m, hT, hplan, rfl, haliases ▸ hnumbers, ?_, fun q hq => ?_,
    hstages.imp fun _ _ hstage => hstage.outputs, hroot.outputs⟩
  · refine List.Nodup.map Sql.aliasName_injective ?_
    rw [haliases]
    exact hnumbers.nodup_iff.mpr List.nodup_range'
  · rcases List.mem_append.mp hq with hq | hq
    · obtain ⟨stage, hstage, rfl⟩ := List.mem_map.mp hq
      obtain ⟨work, -, hconforms⟩ := exists_related_of_mem hstages hstage
      exact hconforms.inScope
    · rw [List.mem_singleton.mp hq]
      exact hroot.inScope

/-- `l(i, x)` with `y := x + 1` and then `x := y`. -/
def steppedSide : Tree :=
  .extend (.table ⟨[108], [[105], [120]], none⟩)
    [⟨[121], .binary (.var [120]) [43] (.lit (.int 1))⟩, ⟨[120], .var [121]⟩] [] []

/-- What work `f` makes of `r(i, w)`. -/
def workedSide : Tree :=
  .externalTransform (.table ⟨[114], [[105], [119]], none⟩) [[105]] [[105], [119]] (namedWork [102])
    [112] [113] true

/-- The join of the two sides on `x = w`. -/
def steppedPair : Tree :=
  .thetaJoin steppedSide workedSide (.binary (.var [120]) [61] (.var [119])) .inner .default [[105]]

/-- The first three rows of the join by `w`, and two of the columns. -/
def orderedPair : Tree :=
  .selectColumns (.orderBy steppedPair [⟨[119], true⟩] (some 3)) [[105, 95, 97], [119]]

theorem built_orderedPair : orderedPair.Built := by
  have hl : Pipeline.table [108] [[105], [120]] none =
      .ok (.table ⟨[108], [[105], [120]], none⟩) := rfl
  have hr : Pipeline.table [114] [[105], [119]] none =
      .ok (.table ⟨[114], [[105], [119]], none⟩) := rfl
  have he : Pipeline.extend (.table ⟨[108], [[105], [120]], none⟩)
      [⟨[121], .binary (.var [120]) [43] (.lit (.int 1))⟩, ⟨[120], .var [121]⟩] [] [] =
        .ok steppedSide := by cbv
  have hw : Pipeline.externalTransform (.table ⟨[114], [[105], [119]], none⟩) [[105]] [[105], [119]]
      (some (namedWork [102])) [112] [113] true = .ok workedSide := rfl
  have hj : Pipeline.thetaJoin steppedSide workedSide (.binary (.var [120]) [61] (.var [119])) .inner
      .default = .ok steppedPair := by cbv
  have ho : Pipeline.orderBy steppedPair [⟨[119], true⟩] (some 3) =
      .ok (.orderBy steppedPair [⟨[119], true⟩] (some 3)) := by cbv
  have hc : Pipeline.selectColumns (.orderBy steppedPair [⟨[119], true⟩] (some 3))
      [[105, 95, 97], [119]] = .ok orderedPair := by cbv
  exact .selectColumns
    (.orderBy (.thetaJoin (.extend (.table hl) he) (.externalTransform (.table hr) hw) hj) ho) hc

/-- A batch in two stages, the read of an outgoing table, a join with suffixes, and an ordering that the
choice of columns takes over. -/
theorem generate_well_scoped_orderedPair :
    orderedPair.Built ∧
      ∃ steps, orderedPair.generate .generic ⟨none, none, none⟩ = .ok steps ∧
        ∃ T plan m, orderedPair.prepare ⟨none, none, none⟩ = .ok T ∧
          Sql.plan .generic none T = .ok plan ∧ steps = plan.steps .generic ∧
          (plan.queries.flatMap Sql.Query.aliases).Perm (List.range' 1 m) ∧
          ((plan.queries.flatMap Sql.Query.aliases).map Sql.aliasName).Nodup ∧
          (∀ q ∈ plan.queries, q.InScope orderedPair.described) ∧
          List.Forall₂ (fun work stage => stage.query.outputs = work.source.selects) T.delegations
            plan.stages ∧
          plan.root.outputs =
            [[[105], [120]], [[105], [120], [121]], [[105], [120], [121]], [[105], [119]],
              [[105, 95, 97], [120], [121], [105, 95, 98], [119]], [[105, 95, 97], [119]]] := by
  obtain ⟨steps, hs⟩ :
      ∃ steps, orderedPair.generate .generic ⟨none, none, none⟩ = .ok steps := ⟨_, by cbv⟩
  obtain ⟨T, plan, m, hT, hplan, hsteps, hnumbers, hnames, hscope, hstages, hroot⟩ :=
    generate_well_scoped built_orderedPair hs
  have hselects : (orderedPair.prepare ⟨none, none, none⟩).map selects =
      .ok [[[105], [120]], [[105], [120], [121]], [[105], [120], [121]], [[105], [119]],
        [[105, 95, 97], [120], [121], [105, 95, 98], [119]], [[105, 95, 97], [119]]] := by
    cbv
  rw [hT] at hselects
  exact ⟨built_orderedPair, steps, hs, T, plan, m, hT, hplan, hsteps, hnumbers, hnames, hscope, hstages,
    hroot.trans (Except.ok.inj hselects)⟩

end Tree

end SqlPipeline
