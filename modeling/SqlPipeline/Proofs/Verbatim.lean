import SqlPipeline.Proofs.Capabilities
import SqlPipeline.Proofs.OnePass
import SqlPipeline.Proofs.Scoping

/-!
# Expressions in statements

An expression may hold line breaks, in a constant or in the text of a template, and the
node that it belongs to may stand deep inside other queries. The statement still holds
its text byte for byte: indentation goes in front of the lines of a query and never into
text that is there.

`Tree.visits` says of each node of a tree in which statement it is written, how deep, and
after how many subqueries. From that the text of its expressions is known: names are
quoted, the predicate of a join goes through the aliases of its sides, and a template
holds its input between parentheses. `Sql.Compiled.found` finds that text.
-/

namespace SqlPipeline

/-- The text of an expression whose names are written by `name`; `input` is the text of a template's
subquery. -/
def Expr.write (d : Dialect) (name : Text → Text) (input : Text) (e : Expr) : Text :=
  e.pieces.flatMap fun
    | .var x => name x
    | .const value => d.writeLiteral value
    | .text value => value
    | .input => input

/-- The text of a statement. -/
def Step.sql? : Step → Option Text
  | statement sql => some sql
  | transform .. => none

/-- A node, and the point at which it is written. -/
structure Visit where
  node : Tree
  /-- The number of its statement, from zero. -/
  statement : Nat
  depth : Nat
  /-- How many subqueries have got their numbers before. -/
  aliases : Nat

namespace Tree

/-- How many subqueries a tree has in all its statements. -/
def subqueries : Tree → Nat
  | table _ => 0
  | extend source assignments _ _ =>
    source.subqueries + (stagesOf source.schema assignments).length
  | naturalJoin left right _ | thetaJoin left right _ _ _ _ =>
    left.subqueries + 1 + right.subqueries + 1
  | externalTransform source .. => source.subqueries
  | selectColumns (orderBy source _ _) _ => source.subqueries + 1
  | project source .. | selectRows source _ | selectColumns source _ | renameColumns source _
  | orderBy source .. | rawStatement source .. => source.subqueries + 1

/-- The nodes of a tree in post-order, the root of which is written in the given statement at the given
depth, after so many stages and subqueries. -/
def visits (tree : Tree) (statement staged depth aliases : Nat) : List Visit :=
  (match tree with
    | table _ => []
    | extend source assignments _ _ =>
      source.visits statement staged (depth + (stagesOf source.schema assignments).length) aliases
    | naturalJoin left right _ | thetaJoin left right _ _ _ _ =>
      left.visits statement staged (depth + 1) aliases ++
        right.visits statement (staged + left.delegations.length) (depth + 1)
          (aliases + left.subqueries + 1)
    -- delegated work gets its input from a statement of its own
    | externalTransform source .. =>
      source.visits (staged + source.delegations.length) staged 0 aliases
    -- one SELECT for both the choice of columns and the ordering
    | selectColumns (orderBy source terms limit) _ =>
      source.visits statement staged (depth + 1) aliases ++
        [⟨orderBy source terms limit, statement, depth, aliases⟩]
    | project source .. | selectRows source _ | selectColumns source _ | renameColumns source _
    | orderBy source .. | rawStatement source .. =>
      source.visits statement staged (depth + 1) aliases) ++
    [⟨tree, statement, depth, aliases⟩]

end Tree

namespace Visit

/-- How a node writes a name. The predicate of a join goes through the alias of the side that has the
column, under the name that the column has there. -/
def name (d : Dialect) (v : Visit) : Text → Text :=
  match v.node with
  | .thetaJoin left right _ _ suffixes collisions => fun x =>
    let leftAlias := v.aliases + left.subqueries + 1
    let rightAlias := leftAlias + right.subqueries + 1
    let columns := joinColumns left.schema right.schema collisions suffixes
    match columns.find? fun column => column.output == x with
    | some column =>
      Sql.aliasName (if column.fromLeft then leftAlias else rightAlias) ++ "." ++ d.quote column.input
    | none => d.quote x
  | _ => d.quote

/-- What stands for the input in the expressions of a node: for a template what its source is written as,
one level down, between parentheses and under the next alias. -/
def Input (d : Dialect) (limit : Option Nat) (v : Visit) (input : Text) : Prop :=
  match v.node with
  | .rawStatement source _ _ _ =>
    ∃ inner pen pen', pen.depth = v.depth + 1 ∧ pen.aliases = v.aliases ∧
      (Sql.writeTree d limit source).run pen = .ok (inner, pen') ∧
      input = Sql.subquery v.depth inner (v.aliases + source.subqueries + 1)
  | _ => input = []

/-- A text holds each expression of the node in one piece. -/
def Shown (d : Dialect) (limit : Option Nat) (v : Visit) (sql : Text) : Prop :=
  ∃ input, v.Input d limit input ∧ ∀ e ∈ v.node.expressions, e.write d (v.name d) input <:+: sql

end Visit

/-! ## Every node is visited -/

namespace Tree

variable {source : Tree} {columns : List Text}

theorem subqueries_selectColumns (h : source.kind ≠ .orderBy) :
    (selectColumns source columns).subqueries = source.subqueries + 1 := by
  cases source with
  | orderBy => exact absurd rfl h
  | _ => rfl

theorem visits_selectColumns (h : source.kind ≠ .orderBy) (statement staged depth aliases : Nat) :
    (selectColumns source columns).visits statement staged depth aliases =
      source.visits statement staged (depth + 1) aliases ++
        [⟨selectColumns source columns, statement, depth, aliases⟩] := by
  cases source with
  | orderBy => exact absurd rfl h
  | _ => rfl

/-- **Every node is visited**, once for each place that it has in the tree. -/
theorem map_node_visits (t : Tree) (statement staged depth aliases : Nat) :
    (t.visits statement staged depth aliases).map Visit.node = t.postOrder := by
  induction t using Sql.compile_induction generalizing statement staged depth aliases with
  | table t => rfl
  | selectColumns source columns hkind ih =>
    rw [visits_selectColumns hkind, List.map_append, ih]
    rfl
  | naturalJoin left right type ihl ihr | thetaJoin left right predicate type suffixes collisions ihl ihr =>
    simp only [visits, List.map_append, ihl, ihr]
    rfl
  | _ =>
    rename_i ih
    simp only [visits, List.map_append, ih]
    rfl

end Tree

/-! ## Texts inside texts -/

namespace Sql

section Texts

open List (infix_append_of_infix_left infix_append_of_infix_right)

variable {x inner : Text} {d : Dialect}

theorem infix_join {xs : List Text} (h : x ∈ xs) (separator : Text) :
    x <:+: Text.join separator xs := by
  cases xs with
  | nil => cases h
  | cons first rest =>
    rw [Text.join_cons]
    rcases List.mem_cons.mp h with rfl | h
    · exact List.infix_append_left
    · obtain ⟨before, after, rfl⟩ := List.append_of_mem h
      rw [List.flatMap_append, List.flatMap_cons]
      exact infix_append_of_infix_right (infix_append_of_infix_right
        (infix_append_of_infix_left List.infix_append_right))

theorem infix_line (h : x <:+: inner) (depth : Nat) : x <:+: line depth inner :=
  infix_append_of_infix_right h

/-- What is in a subquery is in the clause that starts with it. -/
theorem infix_from (h : x <:+: inner) (depth : Nat) (keyword : Text) (scope : Nat) :
    x <:+: line depth (keyword ++ subquery depth inner scope) :=
  infix_line (infix_append_of_infix_right
    (infix_append_of_infix_left (infix_append_of_infix_right h))) depth

theorem infix_items {item : Item} {items : List Item} (h : item ∈ items) (hx : x <:+: item.print d) :
    x <:+: printItems d items :=
  infix_append_of_infix_right (hx.trans (infix_join (List.mem_map_of_mem h) ", "))

variable {items : List Item} {source left right : Query} {scope leftAlias rightAlias : Nat}
  {clauses : Clauses} {type : JoinType} {on : Condition} {depth : Nat}

theorem source_infix_select :
    source.print d (depth + 1) <:+: (Query.select items source scope clauses).print d depth :=
  infix_append_of_infix_left (infix_append_of_infix_right (infix_from (List.infix_refl _) _ _ _))

theorem item_infix_select {item : Item} (h : item ∈ items) (hx : x <:+: item.print d) :
    x <:+: (Query.select items source scope clauses).print d depth :=
  infix_append_of_infix_left (infix_append_of_infix_left
    (infix_append_of_infix_right (infix_items h hx)))

theorem clauses_infix_select (h : x <:+: clauses.print d depth) :
    x <:+: (Query.select items source scope clauses).print d depth :=
  infix_append_of_infix_right h

theorem left_infix_join : left.print d (depth + 1) <:+:
    (Query.join items type left leftAlias right rightAlias on).print d depth :=
  infix_append_of_infix_left (infix_append_of_infix_left
    (infix_append_of_infix_right (infix_from (List.infix_refl _) _ _ _)))

theorem right_infix_join : right.print d (depth + 1) <:+:
    (Query.join items type left leftAlias right rightAlias on).print d depth :=
  infix_append_of_infix_left
    (infix_append_of_infix_right (infix_from (List.infix_refl _) _ _ _))

theorem predicate_infix_join {term : Term} : term.print d [] <:+:
    (Query.join items type left leftAlias right rightAlias (.predicate term)).print d depth :=
  infix_append_of_infix_right (infix_line (infix_append_of_infix_right (List.infix_refl _)) _)

/-- What is in the input of a template is in the template, if it has the input at all. -/
theorem source_infix_template {columns : List Text} {body : Term} (h : Part.input ∈ body) :
    source.print d (depth + 1) <:+: (Query.template columns body source scope).print d depth := by
  obtain ⟨before, after, rfl⟩ := List.append_of_mem h
  refine infix_append_of_infix_right ?_
  simp only [Term.print, List.flatMap_append, List.flatMap_cons, Part.print]
  refine infix_append_of_infix_right (infix_append_of_infix_left ?_)
  exact infix_append_of_infix_left (infix_append_of_infix_right (List.infix_refl _))

theorem body_infix_template {columns : List Text} {body : Term} :
    body.print d (subquery depth (source.print d (depth + 1)) scope) <:+:
      (Query.template columns body source scope).print d depth :=
  infix_append_of_infix_right (List.infix_refl _)

end Texts

/-- A resolved expression is written piece by piece. -/
theorem print_resolved (d : Dialect) (resolve : Text → Ref) (e : Expr) (input : Text) :
    (resolved resolve e).print d input = e.write d (fun x => (resolve x).print d) input := by
  rw [resolved, Term.print, List.flatMap_map, Expr.write]
  refine congrArg (List.flatMap · e.pieces) (funext fun piece => ?_)
  cases piece with
  | var | const | text | input => rfl

theorem print_bare (d : Dialect) (e : Expr) (input : Text) :
    (resolved .bare e).print d input = e.write d d.quote input :=
  print_resolved d .bare e input

theorem input_mem_resolved {e : Expr} (h : e.hasInput = true) (resolve : Text → Ref) :
    Part.input ∈ resolved resolve e := by
  obtain ⟨piece, hpiece, hinput⟩ := List.any_eq_true.mp h
  cases piece with
  | input => exact List.mem_map.mpr ⟨.input, hpiece, rfl⟩
  | _ => cases hinput

/-- An item that writes an expression. -/
theorem infix_computed (d : Dialect) (e : Expr) (window : Option Window) (label : Option Text) :
    e.write d d.quote [] <:+: Item.print d ⟨.computed (resolved .bare e) window, label⟩ := by
  rw [← print_bare]
  exact List.infix_append_of_infix_left (List.infix_append_of_infix_left (List.infix_refl _))

theorem infix_aggregate (d : Dialect) (e : Expr) (label : Option Text) :
    e.write d d.quote [] <:+: Item.print d ⟨.aggregate (resolved .bare e), label⟩ := by
  rw [← print_bare]
  exact List.infix_append_of_infix_left (List.infix_refl _)

/-- A filter stands after its keyword. -/
theorem infix_filter (d : Dialect) (depth : Nat) (e : Expr) :
    e.write d d.quote [] <:+: Clauses.print d depth ⟨some (resolved .bare e), [], [], none⟩ := by
  rw [← print_bare]
  refine List.infix_append_of_infix_left (List.infix_append_of_infix_left ?_)
  exact List.infix_append_of_infix_left (infix_line List.infix_append_right depth)

/-- How the predicate of a join refers to a column. -/
theorem name_thetaJoin (d : Dialect) (left right : Tree) (predicate : Expr) (type : JoinType)
    (suffixes : Suffixes) (collisions : List Text) (here depth n : Nat) :
    Visit.name d ⟨.thetaJoin left right predicate type suffixes collisions, here, depth, n⟩ =
      fun x => (resolveJoin (n + left.subqueries + 1)
        (n + left.subqueries + 1 + right.subqueries + 1)
        (joinColumns left.schema right.schema collisions suffixes) x).print d := by
  funext x
  simp only [Visit.name, resolveJoin]
  cases (joinColumns left.schema right.schema collisions suffixes).find? fun column =>
      column.output == x with
  | some column => rfl
  | none => rfl

/-! ## The SELECTs of a batch -/

section Layers

variable {d : Dialect} {window : Option Window} {final : List Text} {stages : List (List Assignment)}

/-- The query that a batch works on stands as many levels down as there are stages. -/
theorem source_infix_layers (columns : List Text) (q : Query) (n depth : Nat) :
    q.print d (depth + stages.length) <:+:
      (layers window final stages columns q n).print d depth := by
  induction stages generalizing columns q n with
  | nil => exact List.infix_refl _
  | cons stage rest ih => exact source_infix_select.trans (ih _ _ _)

/-- Each assignment is written in the SELECT of its stage. -/
theorem assignment_infix_layers (hnd : ∀ stage ∈ stages, (stage.map Assignment.target).Nodup)
    (hfinal : ∀ stage ∈ stages, ∀ a ∈ stage, a.target ∈ final) {stage : List Assignment}
    (hs : stage ∈ stages) {a : Assignment} (ha : a ∈ stage) (columns : List Text) (q : Query)
    (n depth : Nat) :
    a.expr.write d d.quote [] <:+: (layers window final stages columns q n).print d depth := by
  induction stages generalizing columns q n with
  | nil => cases hs
  | cons first rest ih =>
    rcases List.mem_cons.mp hs with rfl | hs
    · -- targets differ within a stage, so the item of this column is that of the assignment
      have hitem : stageItem window stage a.target =
          ⟨.computed (resolved .bare a.expr) window, some a.target⟩ := by
        rw [stageItem, find?_key_eq_some (hnd stage List.mem_cons_self) ha]
      rw [layers]
      refine List.IsInfix.trans ?_ (source_infix_layers _ _ _ _)
      refine item_infix_select (List.mem_map_of_mem (?_ : a.target ∈ _))
        (hitem ▸ infix_computed d a.expr window (some a.target))
      split
      · exact hfinal stage List.mem_cons_self a ha
      · exact mem_appendNew.mpr (Or.inr (List.mem_map.mpr ⟨a, ha, rfl⟩))
    · exact ih (fun other ho => hnd other (List.mem_cons_of_mem _ ho))
        (fun other ho => hfinal other (List.mem_cons_of_mem _ ho)) hs _ _ _

/-- An extension whose batch is in scope writes all of it. -/
theorem assignment_infix_extend {columns : List Text} {as : List Assignment} (h : Scoped columns as)
    {a : Assignment} (ha : a ∈ as) (q : Query) (n depth : Nat) :
    a.expr.write d d.quote [] <:+:
      (layers window (Text.appendNew columns (as.map Assignment.target)) (stagesOf columns as) columns q
        n).print d depth := by
  obtain ⟨stages, hstages⟩ := partition_of_scoped h
  have hof : stagesOf columns as = stages := by rw [stagesOf, hstages]
  have hperm := partition_perm hstages
  obtain ⟨stage, hs, hin⟩ := List.mem_flatten.mp (hperm.mem_iff.mpr ha)
  rw [hof]
  refine assignment_infix_layers (partition_nodup_targets hstages) (fun stage hs b hb => ?_) hs hin _ _ _ _
  have hb : b ∈ as := hperm.mem_iff.mp (List.mem_flatten.mpr ⟨stage, hs, hb⟩)
  exact mem_appendNew.mpr (Or.inr (List.mem_map_of_mem hb))

end Layers

/-! ## Runs and rules -/

section Compiled

variable {d : Dialect} {limit : Option Nat} {t : Tree} {q q' : Query} {s s' s'' : Progress}

/-- A valid tree of which the dialect supports every node. -/
structure Ready (d : Dialect) (t : Tree) : Prop where
  valid : t.Valid
  supported : Compilable d t

theorem Ready.input {c : Tree} (h : Ready d t) (hc : c ∈ t.children) : Ready d c :=
  ⟨h.valid.input hc, (compilable_iff.mp h.supported).2 c hc⟩

/-- The rules leave no choice. -/
theorem Compiled.unique (h : Compiled d limit t s q s') (h' : Compiled d limit t s q' s'') :
    q = q' ∧ s' = s'' := by
  induction h generalizing q' s'' with
  | table => cases h' with | table => exact ⟨rfl, rfl⟩
  | naturalJoin _ _ ihl ihr =>
    -- the left side fixes the progress from which the right side is compiled
    cases h' with | naturalJoin hl hr =>
    obtain ⟨rfl, rfl⟩ := ihl hl
    obtain ⟨rfl, rfl⟩ := ihr hr
    exact ⟨rfl, rfl⟩
  | thetaJoin _ _ hcolumns ihl ihr =>
    cases h' with | thetaJoin hl hr hcolumns' =>
    obtain ⟨rfl, rfl⟩ := ihl hl
    obtain ⟨rfl, rfl⟩ := ihr hr
    rw [hcolumns, hcolumns']
    exact ⟨rfl, rfl⟩
  | ordered _ ih =>
    cases h' with
    | ordered h' =>
      obtain ⟨rfl, rfl⟩ := ih h'
      exact ⟨rfl, rfl⟩
    -- the rule for ordered rows and the plain one exclude each other
    | selectColumns hkind => exact absurd rfl hkind
  | selectColumns hkind _ ih =>
    cases h' with
    | ordered => exact absurd rfl hkind
    | selectColumns _ h' =>
      obtain ⟨rfl, rfl⟩ := ih h'
      exact ⟨rfl, rfl⟩
  | extend _ ih | project _ ih | selectRows _ ih | renameColumns _ ih | orderBy _ ih
  | rawStatement _ ih | externalTransform _ ih =>
    cases h'
    rename_i h'
    obtain ⟨rfl, rfl⟩ := ih h'
    exact ⟨rfl, rfl⟩

/-- Where the dialect supports every node, what the rules give is what compiling gives. -/
theorem Compiled.run (h : Compiled d limit t s q s') (ht : Ready d t) :
    (compile d limit t).run s = .ok (q, s') := by
  cases hrun : (compile d limit t).run s with
  | error e =>
    obtain ⟨n, hn, hb⟩ := (judged_compile d limit ht.valid s).error hrun
    exact absurd hb (ht.supported n hn).not_blamed
  | ok r =>
    obtain ⟨rfl, rfl⟩ := h.unique (compiled_of_run hrun)
    rfl

/-- Then it is also what is written at any depth. -/
theorem Compiled.written (h : Compiled d limit t s q s') (ht : Ready d t) (depth : Nat) :
    ∃ pen pen' : Pen, pen.depth = depth ∧ pen.aliases = s.aliases ∧
      (writeTree d limit t).run pen = .ok (q.print d depth, pen') := by
  have hwrite := follows_tree d limit t depth [] s
  rw [h.run ht] at hwrite
  exact ⟨_, _, rfl, rfl, hwrite⟩

/-- How many subqueries there are afterwards. -/
theorem Compiled.aliases_eq (h : Compiled d limit t s q s') :
    s'.aliases = s.aliases + t.subqueries := by
  induction h with
  | table => rfl
  | extend _ ih => rw [ih, Tree.subqueries, Nat.add_assoc]
  | naturalJoin _ _ ihl ihr | thetaJoin _ _ _ ihl ihr =>
    simp only [Progress.next, Tree.subqueries] at ihl ihr ⊢
    omega
  | externalTransform _ ih => exact ih
  | selectColumns hkind _ ih =>
    rw [Tree.subqueries_selectColumns hkind, Progress.next, ih, Nat.add_assoc]
  | project _ ih | selectRows _ ih | ordered _ ih | renameColumns _ ih | orderBy _ ih
  | rawStatement _ ih => rw [Tree.subqueries, Progress.next, ih, Nat.add_assoc]

/-- Compiling adds a stage for each piece of delegated work and keeps those there are. -/
theorem Compiled.stages_eq (h : Compiled d limit t s q s') (ht : Ready d t) :
    s.stages <+: s'.stages ∧ s'.stages.length = s.stages.length + t.delegations.length := by
  obtain ⟨made, hmade, hstaged⟩ := (compile_emits (h.run ht)).stages
  refine ⟨⟨made, hmade.symm⟩, ?_⟩
  rw [hmade, List.length_append, hstaged.length_eq]

end Compiled

end Sql

/-! ## Finding the expressions -/

namespace Visit

open Sql (Stage)

variable {d : Dialect} {limit : Option Nat} {here : Nat} {x y : Text} {stages stages' : List Stage}
  {v : Visit}

theorem Shown.mono (h : v.Shown d limit x) (hx : x <:+: y) : v.Shown d limit y := by
  obtain ⟨input, hinput, hin⟩ := h
  exact ⟨input, hinput, fun e he => (hin e he).trans hx⟩

/-- A node without expressions. -/
theorem Shown.plain (hi : v.Input d limit []) (he : v.node.expressions = []) : v.Shown d limit x :=
  ⟨[], hi, by simp [he]⟩

/-- The text shows the node if it is that of the statement of the node; else one of the stages does. -/
def Found (d : Dialect) (limit : Option Nat) (here : Nat) (text : Text) (stages : List Stage)
    (v : Visit) : Prop :=
  (v.statement = here ∧ v.Shown d limit text) ∨
    ∃ stage, stages[v.statement]? = some stage ∧ v.Shown d limit (stage.query.print d 0)

namespace Found

theorem mono (h : v.Found d limit here x stages) (hx : x <:+: y) (hs : stages <+: stages') :
    v.Found d limit here y stages' := by
  rcases h with ⟨hhere, hshown⟩ | ⟨stage, hstage, hshown⟩
  · exact .inl ⟨hhere, hshown.mono hx⟩
  · obtain ⟨hlt, rfl⟩ := List.getElem?_eq_some_iff.mp hstage
    exact .inr ⟨_, List.prefix_iff_getElem?.mp hs _ hlt, hshown⟩

/-- What a stage of its own shows. -/
theorem staged {stage : Stage}
    (h : v.Found d limit stages.length (stage.query.print d 0) stages) :
    v.Found d limit here y (stages ++ [stage]) := by
  rcases h with ⟨hhere, hshown⟩ | hstaged
  · refine .inr ⟨stage, ?_, hshown⟩
    rw [hhere, List.getElem?_concat_length]
  · exact mono (.inr hstaged) (List.infix_refl y) (List.prefix_append stages [stage])

/-- A node over others whose text is part of its text. -/
theorem above {below : List Visit} (h : ∀ v ∈ below, v.Found d limit here x stages) (hx : x <:+: y)
    {node : Tree} {depth aliases : Nat} (hself : Shown d limit ⟨node, here, depth, aliases⟩ y) :
    ∀ v ∈ below ++ [⟨node, here, depth, aliases⟩], v.Found d limit here y stages := by
  intro v hv
  rcases List.mem_append.mp hv with hv | hv
  · exact (h v hv).mono hx (List.prefix_refl _)
  · obtain rfl := List.mem_singleton.mp hv
    exact .inl ⟨rfl, hself⟩

/-- The sides of a join, of which the right one may have added stages. -/
theorem sides {left right : List Visit} {z : Text} (hl : ∀ v ∈ left, v.Found d limit here x stages)
    (hr : ∀ v ∈ right, v.Found d limit here y stages') (hs : stages <+: stages') (hx : x <:+: z)
    (hy : y <:+: z) : ∀ v ∈ left ++ right, v.Found d limit here z stages' := by
  intro v hv
  rcases List.mem_append.mp hv with hv | hv
  · exact (hl v hv).mono hx hs
  · exact (hr v hv).mono hy (List.prefix_refl _)

end Found

end Visit

namespace Sql

variable {d : Dialect} {limit : Option Nat} {t : Tree} {q : Query} {s s' : Progress}

/-- **Every node is shown** in the query of its statement. -/
theorem Compiled.found (h : Compiled d limit t s q s') (ht : Ready d t) (here depth : Nat) :
    ∀ v ∈ t.visits here s.stages.length depth s.aliases,
      v.Found d limit here (q.print d depth) s'.stages := by
  induction h generalizing here depth with
  | table t s =>
    intro v hmem
    obtain rfl := List.mem_singleton.mp hmem
    exact .inl ⟨rfl, .plain rfl rfl⟩
  | extend _ ih =>
    refine .above (ih (ht.input List.mem_cons_self) here _) (source_infix_layers _ _ _ _)
      ⟨[], rfl, fun e he => ?_⟩
    obtain ⟨a, ha, rfl⟩ := List.mem_map.mp he
    exact assignment_infix_extend ht.valid.checked.inScope ha _ _ _
  | project _ ih =>
    refine .above (ih (ht.input List.mem_cons_self) here _) source_infix_select
      ⟨[], rfl, fun e he => ?_⟩
    obtain ⟨a, ha, rfl⟩ := List.mem_map.mp he
    exact item_infix_select (List.mem_append_right _ (List.mem_map_of_mem ha))
      (infix_aggregate d a.expr (some a.target))
  | selectRows _ ih =>
    refine .above (ih (ht.input List.mem_cons_self) here _) source_infix_select
      ⟨[], rfl, fun e he => ?_⟩
    obtain rfl := List.mem_singleton.mp he
    exact clauses_infix_select (infix_filter d depth e)
  | naturalJoin hl hr ihl ihr =>
    have hleft := ht.input List.mem_cons_self
    have hright := ht.input (List.mem_cons_of_mem _ List.mem_cons_self)
    have hfound := ihr hright here (depth + 1)
    simp only [Progress.next, (hl.stages_eq hleft).2, hl.aliases_eq] at hfound
    exact .above (.sides (ihl hleft here _) hfound (hr.stages_eq hright).1 left_infix_join
      right_infix_join) (List.infix_refl _) (.plain rfl rfl)
  | thetaJoin hl hr hcolumns ihl ihr =>
    have hleft := ht.input List.mem_cons_self
    have hright := ht.input (List.mem_cons_of_mem _ List.mem_cons_self)
    have hfound := ihr hright here (depth + 1)
    -- the aliases of the sides are the numbers after each of them
    have hlast := hr.aliases_eq
    simp only [Progress.next, (hl.stages_eq hleft).2, hl.aliases_eq] at hfound hlast
    refine .above (.sides (ihl hleft here _) hfound (hr.stages_eq hright).1 left_infix_join
      right_infix_join) (List.infix_refl _) ⟨[], rfl, fun e he => ?_⟩
    obtain rfl := List.mem_singleton.mp he
    rw [name_thetaJoin, ← print_resolved, ← hlast, ← hl.aliases_eq, ← hcolumns]
    exact predicate_infix_join
  | ordered _ ih =>
    have hsource := (ht.input List.mem_cons_self).input List.mem_cons_self
    refine .above (fun v hmem => ?_) (List.infix_refl _) (.plain rfl rfl)
    refine Visit.Found.above (ih hsource here _) source_infix_select ?_ v hmem
    exact .plain rfl rfl
  | selectColumns hkind _ ih =>
    rw [Tree.visits_selectColumns hkind]
    exact .above (ih (ht.input List.mem_cons_self) here _) source_infix_select (.plain rfl rfl)
  | renameColumns _ ih | orderBy _ ih =>
    exact .above (ih (ht.input List.mem_cons_self) here _) source_infix_select (.plain rfl rfl)
  | rawStatement hsource ih =>
    -- a template without its input would lose all that is below it
    have hready := ht.input List.mem_cons_self
    obtain ⟨pen, pen', hdepth, haliases, hwritten⟩ := hsource.written hready (depth + 1)
    refine .above (ih hready here _) (source_infix_template ?_)
      ⟨_, ⟨_, pen, pen', hdepth, haliases, hwritten, rfl⟩, fun e he => ?_⟩
    · exact input_mem_resolved ht.valid.checked.input .bare
    · obtain rfl := List.mem_singleton.mp he
      rw [← hsource.aliases_eq]
      exact print_bare d e _ ▸ body_infix_template
  | externalTransform hsource ih =>
    have hready := ht.input List.mem_cons_self
    refine .above (fun v hmem => ?_) (List.infix_refl _) (.plain rfl rfl)
    rw [← (hsource.stages_eq hready).2] at hmem
    exact (ih hready _ 0 v hmem).staged

/-! ## Statements of a plan -/

/-- The query of a statement that makes a table is its last part. -/
theorem query_infix_creation (d : Dialect) (creation : Creation) (query : Text) :
    query <:+: creation.statement d query :=
  List.infix_append_right

/-- The statements are those of the stages and then that of the root. -/
theorem sqls_steps (stages : List Stage) (root : Query) :
    (Plan.steps d ⟨stages, root⟩).filterMap Step.sql? =
      stages.map (fun stage => stage.creation.statement d (stage.query.print d 0)) ++
        [root.print d 0] := by
  have hstages : (stages.flatMap (Stage.steps d)).filterMap Step.sql? =
      stages.map fun stage => stage.creation.statement d (stage.query.print d 0) := by
    induction stages with
    | nil => rfl
    | cons stage rest ih =>
      rw [List.flatMap_cons, List.filterMap_append, ih, Stage.steps, Query.statement_eq]
      rfl
  rw [Plan.steps, List.filterMap_append, hstages, Query.statement_eq]
  rfl

/-- What is found in the queries of a plan is in the statement with its number. -/
theorem shown_of_found {v : Visit} {stages : List Stage} {root : Query}
    (h : v.Found d limit stages.length (root.print d 0) stages) :
    ∃ sql, ((Plan.steps d ⟨stages, root⟩).filterMap Step.sql?)[v.statement]? = some sql ∧
      v.Shown d limit sql := by
  rw [sqls_steps]
  rcases h with ⟨hhere, hshown⟩ | ⟨stage, hstage, hshown⟩
  · refine ⟨root.print d 0, ?_, hshown⟩
    rw [hhere, List.getElem?_append_right (by simp)]
    simp
  · refine ⟨_, ?_, hshown.mono (query_infix_creation d stage.creation _)⟩
    obtain ⟨hlt, rfl⟩ := List.getElem?_eq_some_iff.mp hstage
    rw [List.getElem?_append_left (by simpa using hlt)]
    simp [hlt]

end Sql

namespace Tree

/-- The steps hold the expressions of the tree they are made of. -/
structure Verbatim (d : Dialect) (limit : Option Nat) (T : Tree) (steps : List Step) : Prop where
  /-- The nodes that are looked at are those of the tree. -/
  visited : (T.visits T.delegations.length 0 0 0).map Visit.node = T.postOrder
  /-- The statement of a node holds each of its expressions in one piece. -/
  inserted : ∀ v ∈ T.visits T.delegations.length 0 0 0,
    ∃ sql, (steps.filterMap Step.sql?)[v.statement]? = some sql ∧ v.Shown d limit sql
  /-- A writer that keeps the depth in a variable makes the same steps. -/
  onePass : Sql.writeSteps d limit T = .ok steps

variable {t : Tree} {d : Dialect} {options : GenerateOptions} {steps : List Step}

/--
**Expressions are inserted verbatim at every depth.**

Steps are made of a prepared tree, and each of its nodes has its place in one of the statements. Whatever
stands around the node, that statement holds the text of each of its expressions as one contiguous part:
constants and texts as they are, names quoted or, in the predicate of a join, through the alias of their
side, and in a template the parenthesised source for the input. Nothing but that source depends on the
depth. A writer that carries the depth along in a variable makes the same steps, and every node, from
wherever it is written, leaves that variable as it found it.
-/
theorem generate_inserts_verbatim (h : t.Built) (hs : t.generate d options = .ok steps) :
    (∃ T, t.prepare options = .ok T ∧ T.Verbatim d options.sourceLimit steps) ∧
      ∀ (node : Tree) (pen pen' : Sql.Pen) (text : Text),
        (Sql.writeTree d options.sourceLimit node).run pen = .ok (text, pen') →
          pen'.depth = pen.depth := by
  refine ⟨?_, fun node pen pen' text => Sql.writeTree_depth⟩
  obtain ⟨T, hT, -⟩ := bind_ok_iff.mp hs
  obtain ⟨root, progress, hrun, rfl⟩ := (generate_ok_iff hT).mp hs
  have hcompiled := Sql.compiled_of_run hrun
  have hvalid := prepare_valid h.valid hT
  -- a tree that compiles was allowed everything it demands
  have hready : Sql.Ready d T :=
    ⟨hvalid, (Sql.judged_compile d options.sourceLimit hvalid ⟨0, []⟩).ok hrun⟩
  have hstages : progress.stages.length = T.delegations.length := by
    rw [(hcompiled.stages_eq hready).2, List.length_nil, Nat.zero_add]
  refine ⟨T, hT, map_node_visits T _ _ _ _, fun v hv => ?_, ?_⟩
  · -- the stages come first in the plan, and the root behind the last of them
    rw [← hstages] at hv
    exact Sql.shown_of_found (hcompiled.found hready progress.stages.length 0 v hv)
  · rw [Sql.writeSteps_eq, Sql.plan, hrun]
    rfl

/-- The rows of `orderedPair` with a constant of two lines in `w`, through a template of two lines. -/
def linedText : Tree :=
  .rawStatement
    (.selectRows orderedPair (.binary (.var [119]) "=" (.lit (.string [97, 10, 98])))) [[119]] [[118]]
    ⟨[.text "SELECT ", .var [119], .text " AS v\nFROM ", .input]⟩

/-- What work `g` makes of them, without the empty lines. -/
def linedWork : Tree :=
  .selectRows
    (.externalTransform linedText [[118]] [[118]] (namedWork [103]) [106] [107] true)
    (.binary (.var [118]) "<>" (.lit (.string [10])))

theorem built_linedWork : linedWork.Built := by
  have hr : Pipeline.selectRows orderedPair (.binary (.var [119]) "=" (.lit (.string [97, 10, 98]))) =
      .ok (.selectRows orderedPair (.binary (.var [119]) "=" (.lit (.string [97, 10, 98])))) := by
    cbv
  have ht : Pipeline.rawStatement
      (.selectRows orderedPair (.binary (.var [119]) "=" (.lit (.string [97, 10, 98])))) [[119]] [[118]]
      ⟨[.text "SELECT ", .var [119], .text " AS v\nFROM ", .input]⟩ = .ok linedText := by cbv
  have hw : Pipeline.externalTransform linedText [[118]] [[118]] (some (namedWork [103])) [106] [107]
      true = .ok (.externalTransform linedText [[118]] [[118]] (namedWork [103]) [106] [107] true) := by
    cbv
  have hs : Pipeline.selectRows
      (.externalTransform linedText [[118]] [[118]] (namedWork [103]) [106] [107] true)
      (.binary (.var [118]) "<>" (.lit (.string [10]))) = .ok linedWork := by cbv
  exact .selectRows (.externalTransform
    (.rawStatement (.selectRows built_orderedPair hr) ht) hw) hs

/-- A batch and a join four and three levels down, a constant and a template with line breaks, and a
statement for delegated work beside the last one. -/
theorem generate_inserts_verbatim_linedWork :
    linedWork.Built ∧
      ∃ steps, linedWork.generate .generic ⟨none, none, none⟩ = .ok steps ∧
        (∃ T, linedWork.prepare ⟨none, none, none⟩ = .ok T ∧ T.Verbatim .generic none steps ∧
          ((T.visits T.delegations.length 0 0 0).filter fun v => !v.node.expressions.isEmpty).map
            (fun v => (v.statement, v.depth)) = [(1, 4), (1, 3), (1, 1), (1, 0), (2, 0)]) ∧
        ∀ (node : Tree) (pen pen' : Sql.Pen) (text : Text),
          (Sql.writeTree .generic none node).run pen = .ok (text, pen') → pen'.depth = pen.depth := by
  obtain ⟨steps, hs⟩ :
      ∃ steps, linedWork.generate .generic ⟨none, none, none⟩ = .ok steps := ⟨_, by cbv⟩
  obtain ⟨⟨T, hT, hverbatim⟩, hdepth⟩ := generate_inserts_verbatim built_linedWork hs
  have hplaces : (linedWork.prepare ⟨none, none, none⟩).map (fun T =>
      ((T.visits T.delegations.length 0 0 0).filter fun v => !v.node.expressions.isEmpty).map
        fun v => (v.statement, v.depth)) = .ok [(1, 4), (1, 3), (1, 1), (1, 0), (2, 0)] := by
    cbv
  rw [hT] at hplaces
  exact ⟨built_linedWork, steps, hs, ⟨T, hT, hverbatim, Except.ok.inj hplaces⟩, hdepth⟩

end Tree

end SqlPipeline
