import Mathlib.Data.List.Perm.Subperm
import SqlPipeline.Proofs.PlanMeaning
import SqlPipeline.Proofs.Preparation

/-!
# The order of the final rows

The rows of a subquery have no order that an outer SELECT could see, so an ordering
counts only on the outermost one. It gets there from an ordering at the root and from
one right below a choice of columns, which is written together with it.
`Tree.rowOrder` reads this order off a root, and compiling puts just this order on
the outermost SELECT.

What is left to see is what preparing does to the order. Under an ordering at the root
it stays, with the smaller of the two limits. Under a choice of columns it stays as long
as nothing comes between the two SELECTs, and `Tree.KeepsOrder` says when this is so: a
limit on the rows would be put on top of the choice, and output columns in another order
than the chosen ones need a choice of their own.
-/

namespace SqlPipeline

/-- How the rows of a result are ordered, and how many there are at most. -/
structure RowOrder where
  terms : List OrderTerm
  limit : Option Nat
  deriving Repr, DecidableEq

/-- The order with another limit on the rows; the smaller of two limits counts. -/
def RowOrder.limitedTo (order : RowOrder) (limit : Option Nat) : RowOrder :=
  ⟨order.terms, Option.merge min limit order.limit⟩

namespace Tree

/-- The order that a root gives its rows: that of an ordering at the root, or right below a choice of
columns at the root. -/
def rowOrder : Tree → RowOrder
  | orderBy _ terms limit | selectColumns (orderBy _ terms limit) _ => ⟨terms, limit⟩
  | _ => ⟨[], none⟩

/-- Nothing comes between a choice of columns at the root and the ordering below it. No rows are cut off
on top of it, and the output columns stand in the order of the chosen ones, unless the narrowed ordering
has just the columns that are left and no choice is needed. -/
def KeepsOrder (options : GenerateOptions) : Tree → Prop
  | selectColumns ordered columns =>
    let wanted := options.outputColumns.getD columns
    let left := columns.filter wanted.contains
    options.outputLimit = none ∧ (wanted.Sublist columns ∨ (ordered.narrowed left).schema = left)
  | _ => True

end Tree

/-- The clauses after the FROM clause of a statement. -/
def RowOrder.print (d : Dialect) (order : RowOrder) : Text :=
  Text.onlyIf (!order.terms.isEmpty) (Sql.line 0 (Sql.printOrder d order.terms)) ++
    Text.ofOption (fun n => Sql.line 0 ("LIMIT " ++ Text.ofNat n)) order.limit

/-- The statement selects the columns from one subquery, and its rows are in the given order. -/
def Sql.EndsOrdered (d : Dialect) (columns : List Text) (order : RowOrder) (sql : Text) : Prop :=
  ∃ (inner : Query) (scope : Nat),
    sql = "SELECT " ++ d.quoteList columns ++
      line 0 ("FROM " ++ subquery 0 (inner.print d 1) scope) ++ order.print d

/-! ## The outermost SELECT -/

namespace Sql

variable {d : Dialect} {sourceLimit : Option Nat} {T : Tree} {root : Query} {s s' : Progress}

/-- An ordering or a choice of columns at the root becomes a SELECT with the order of the root. -/
theorem compile_rowOrder (hkind : T.kind = .orderBy ∨ T.kind = .selectColumns)
    (h : (compile d sourceLimit T).run s = .ok (root, s')) :
    ∃ inner scope, root =
      .select (T.schema.map Item.plain) inner scope ⟨none, [], T.rowOrder.terms, T.rowOrder.limit⟩ := by
  cases compiled_of_run h with
  | ordered _ | orderBy _ => exact ⟨_, _, rfl⟩
  | @selectColumns source columns _ _ _ hsource _ =>
    -- over anything but an ordering, a choice of columns has no order of its own
    cases source with
    | orderBy => exact absurd rfl hsource
    | _ => exact ⟨_, _, rfl⟩
  | _ => simp [Tree.kind] at hkind

theorem printItems_plain (d : Dialect) (columns : List Text) :
    printItems d (columns.map Item.plain) = "SELECT " ++ d.quoteList columns := by
  have hitems : (columns.map Item.plain).map (Item.print d) = columns.map d.quote := by
    rw [List.map_map]
    exact List.map_congr_left fun name _ => List.append_nil (d.quote name)
  rw [printItems, hitems]
  rfl

/-- The text of a SELECT of plain columns in some order. -/
theorem endsOrdered_statement (d : Dialect) (columns : List Text) (inner : Query) (scope : Nat)
    (order : RowOrder) :
    EndsOrdered d columns order (Query.statement d
      (.select (columns.map Item.plain) inner scope ⟨none, [], order.terms, order.limit⟩)) := by
  refine ⟨inner, scope, ?_⟩
  rw [Query.statement_eq, Query.print, printItems_plain]
  rfl

theorem getLast?_steps (d : Dialect) (plan : Plan) :
    (plan.steps d).getLast? = some (.statement (plan.root.statement d)) := by
  rw [Plan.steps, List.getLast?_append]
  rfl

end Sql

/-! ## Columns in the order of the chosen ones -/

theorem filter_contains_eq_iff {columns wanted : List Text} (hc : columns.Nodup) :
    columns.filter wanted.contains = wanted ↔ wanted.Sublist columns := by
  constructor
  · intro h
    rw [← h]
    exact List.filter_sublist
  · intro h
    -- the list is kept whole by its own filter, and no more can be kept than it has
    have hself : wanted.filter wanted.contains = wanted :=
      List.filter_eq_self.mpr fun name hn => by simpa using hn
    have hsub : wanted.Sublist (columns.filter wanted.contains) := by
      have hfilter := h.filter wanted.contains
      rwa [hself] at hfilter
    have hlength : (columns.filter wanted.contains).length ≤ wanted.length := by
      refine (List.Nodup.subperm (hc.filter _) fun name hn => ?_).length_le
      simpa using (List.mem_filter.mp hn).2
    exact (hsub.eq_of_length_le hlength).symm

theorem keepOne_of_subset {columns wanted : List Text} (hne : wanted ≠ [])
    (hsub : ∀ name ∈ wanted, name ∈ columns) :
    keepOne columns (wanted.filter columns.contains) = columns.filter wanted.contains := by
  have hwanted : wanted.filter columns.contains = wanted :=
    List.filter_eq_self.mpr fun name hn => by simpa using hsub name hn
  obtain ⟨name, hn⟩ := List.exists_mem_of_ne_nil _ hne
  have hleft : name ∈ columns.filter wanted.contains := by simpa using ⟨hsub name hn, hn⟩
  rw [hwanted, keepOne]
  split
  · rename_i hnil
    rw [hnil] at hleft
    exact absurd hleft (by simp)
  · rfl

namespace Tree

variable {t T L source : Tree} {terms : List OrderTerm} {limit : Option Nat} {columns wanted : List Text}
  {options : GenerateOptions}

/-- The root becomes a SELECT in the given order. -/
def HasOrder (t : Tree) (order : RowOrder) : Prop :=
  (t.kind = .orderBy ∨ t.kind = .selectColumns) ∧ t.rowOrder = order

/-! ## The order of the prepared tree -/

theorem hasOrder_projected_orderBy (source : Tree) (terms : List OrderTerm) (limit : Option Nat)
    (columns : List Text) :
    ((orderBy source terms limit).projected columns).HasOrder ⟨terms, limit⟩ := by
  unfold projected
  split
  · exact ⟨Or.inl rfl, rfl⟩
  · exact ⟨Or.inr rfl, rfl⟩

theorem limitTo_orderBy {n : Option Nat} (h : (orderBy source terms limit).limitTo n = .ok L) :
    L = orderBy source terms (Option.merge min n limit) := by
  cases n with
  | none =>
    rw [Option.merge_none_left]
    exact (Except.ok.inj h).symm
  | some n =>
    cases limit with
    | none => exact (Pipeline.orderBy_ok_iff.mp h).2
    | some m => exact (Pipeline.orderBy_ok_iff.mp h).2

/-- A limit on a choice of columns is an ordering without terms on top of it. -/
theorem limitTo_selectColumns {n : Nat} (h : (selectColumns source columns).limitTo (some n) = .ok L) :
    L = orderBy (selectColumns source columns) [] (some n) := by
  rw [limitTo] at h
  · exact (Pipeline.orderBy_ok_iff.mp h).2
  · nofun
  · nofun

/-- Of two choices of columns on top of an ordering, the order survives one. -/
theorem hasOrder_projected_projected (source : Tree) (terms : List OrderTerm) (limit : Option Nat)
    (left wanted : List Text) :
    (left = wanted ∨ (orderBy source terms limit).schema = left →
        (((orderBy source terms limit).projected left).projected wanted).HasOrder ⟨terms, limit⟩) ∧
      (¬(left = wanted ∨ (orderBy source terms limit).schema = left) →
        (((orderBy source terms limit).projected left).projected wanted).HasOrder ⟨[], none⟩) := by
  by_cases hleft : (orderBy source terms limit).schema = left
  · -- the first list is the schema, so only the second one can put a node on top
    have honce : (orderBy source terms limit).projected left = orderBy source terms limit :=
      if_pos hleft
    rw [honce]
    exact ⟨fun _ => hasOrder_projected_orderBy _ _ _ _, fun hnot => absurd (Or.inr hleft) hnot⟩
  · have honce : (orderBy source terms limit).projected left =
        selectColumns (orderBy source terms limit) left := if_neg hleft
    rw [honce]
    -- a node stands over the order already, and a second one would only cover that
    unfold projected
    split
    · rename_i hsame
      exact ⟨fun _ => ⟨Or.inr rfl, rfl⟩, fun hnot => absurd (Or.inl hsame) hnot⟩
    · rename_i hother
      exact ⟨fun h => absurd h (not_or.mpr ⟨hother, hleft⟩), fun _ => ⟨Or.inr rfl, rfl⟩⟩

theorem narrowed_selectColumns (hne : wanted ≠ []) (hsub : ∀ name ∈ wanted, name ∈ columns) :
    (selectColumns source columns).narrowed wanted =
      (source.narrowed (columns.filter wanted.contains)).projected
        (columns.filter wanted.contains) := by
  rw [← keepOne_of_subset hne hsub]
  rfl

/-- **The order of the prepared tree** is that of the tree, with the smaller limit. Where the tree does
not keep it, no order is left. -/
theorem prepare_hasOrder (h : t.Valid) (hterms : t.rowOrder.terms ≠ [])
    (hT : t.prepare options = .ok T) :
    (t.KeepsOrder options → T.HasOrder (t.rowOrder.limitedTo options.outputLimit)) ∧
      (¬t.KeepsOrder options → T.HasOrder ⟨[], options.outputLimit⟩) := by
  obtain ⟨ha, L, hL, -, -, rfl⟩ := (prepare_ok_iff h).mp hT
  unfold rowOrder at hterms
  split at hterms
  · rename_i source terms limit
    obtain rfl := limitTo_orderBy hL
    exact ⟨fun _ => hasOrder_projected_orderBy _ _ _ _, fun hnot => absurd trivial hnot⟩
  · rename_i source terms limit columns
    have hc : ColumnChecks columns (options.outputColumns.getD columns) := ha.columnChecks h
    simp only [KeepsOrder, schema]
    generalize options.outputColumns.getD columns = wanted at hc ⊢
    cases hlimit : options.outputLimit with
    | some n =>
      rw [hlimit] at hL
      obtain rfl := limitTo_selectColumns hL
      refine ⟨fun hkeeps => ?_, fun _ => hasOrder_projected_orderBy _ _ _ _⟩
      cases hkeeps.1
    | none =>
      rw [hlimit] at hL
      obtain rfl := Except.ok.inj hL
      have hnodup : columns.Nodup := h.named.nodup
      have hmerge : (RowOrder.mk terms limit).limitedTo none = ⟨terms, limit⟩ := by
        rw [RowOrder.limitedTo, Option.merge_none_left]
      rw [narrowed_selectColumns hc.nonempty hc.known, ← filter_contains_eq_iff hnodup, eq_self,
        true_and]
      -- the narrowed ordering is an ordering again, with the same terms and limit
      refine ⟨fun hkeeps => ?_, fun hnot => ?_⟩
      · exact hmerge ▸ (hasOrder_projected_projected _ terms limit _ wanted).1 hkeeps
      · exact (hasOrder_projected_projected _ terms limit _ wanted).2 hnot
  · exact absurd rfl hterms

/--
**Where the ordering of a tree is outermost in the final statement.**

Let the tree order its rows, at the root or right below a choice of columns at the root, and let steps
come out. The last step is a statement that selects the output columns from one subquery. If the tree
keeps its order, the statement ends in the ordering of the tree, after which only the smaller of the two
limits may follow. If it does not, no ordering follows the subquery, only the limit on the output if there
is one.
-/
theorem generate_keeps_order {t : Tree} (h : t.Built) (hterms : t.rowOrder.terms ≠ [])
    {d : Dialect} {options : GenerateOptions} {steps : List Step}
    (hs : t.generate d options = .ok steps) :
    ∃ sql, steps.getLast? = some (.statement sql) ∧
      (t.KeepsOrder options →
        Sql.EndsOrdered d (options.outputColumns.getD t.schema)
          (t.rowOrder.limitedTo options.outputLimit) sql) ∧
      (¬t.KeepsOrder options →
        Sql.EndsOrdered d (options.outputColumns.getD t.schema) ⟨[], options.outputLimit⟩ sql) := by
  obtain ⟨T, hT⟩ : ∃ T, t.prepare options = .ok T := by
    rw [generate] at hs
    obtain ⟨T, hT, -⟩ := bind_ok_iff.mp hs
    exact ⟨T, hT⟩
  obtain ⟨root, progress, hrun, rfl⟩ := (generate_ok_iff hT).mp hs
  have hschema : T.schema = options.outputColumns.getD t.schema := by
    obtain ⟨-, L, -, -, -, rfl⟩ := (prepare_ok_iff h.valid).mp hT
    exact schema_projected _ _
  -- the text ends as the order at the root of the prepared tree says
  have htext : ∀ order, T.HasOrder order →
      Sql.EndsOrdered d (options.outputColumns.getD t.schema) order (root.statement d) := by
    intro order horder
    obtain ⟨inner, scope, rfl⟩ := Sql.compile_rowOrder horder.1 hrun
    rw [horder.2, hschema]
    exact Sql.endsOrdered_statement d _ inner scope order
  have horder := prepare_hasOrder h.valid hterms hT
  exact ⟨_, Sql.getLast?_steps d _, fun hk => htext _ (horder.1 hk), fun hk => htext _ (horder.2 hk)⟩

/-- The columns `a` and `b` of `t(a, b, c)` in the order of `c`. -/
def sortedChoice : Tree :=
  .selectColumns (.orderBy (.table ⟨[116], [[97], [98], [99]], none⟩) [⟨[99], false⟩] none)
    [[97], [98]]

theorem built_sortedChoice : sortedChoice.Built := by
  have ht : Pipeline.table [116] [[97], [98], [99]] none =
      .ok (.table ⟨[116], [[97], [98], [99]], none⟩) := rfl
  have ho : Pipeline.orderBy (.table ⟨[116], [[97], [98], [99]], none⟩) [⟨[99], false⟩] none =
      .ok (.orderBy (.table ⟨[116], [[97], [98], [99]], none⟩) [⟨[99], false⟩] none) := rfl
  have hs : Pipeline.selectColumns
      (.orderBy (.table ⟨[116], [[97], [98], [99]], none⟩) [⟨[99], false⟩] none) [[97], [98]] =
        .ok sortedChoice := rfl
  exact .selectColumns (.orderBy (.table ht) ho) hs

/-- Asked for `b` alone, the choice keeps its order, and the statement ends in it. -/
theorem generate_keeps_order_sortedChoice :
    sortedChoice.Built ∧ sortedChoice.rowOrder.terms ≠ [] ∧
      sortedChoice.KeepsOrder ⟨none, none, some [[98]]⟩ ∧
      ∃ steps, sortedChoice.generate .generic ⟨none, none, some [[98]]⟩ = .ok steps ∧
        ∃ sql, steps.getLast? = some (.statement sql) ∧
          Sql.EndsOrdered .generic [[98]] ⟨[⟨[99], false⟩], none⟩ sql := by
  have hterms : sortedChoice.rowOrder.terms ≠ [] := by decide
  have hkeeps : sortedChoice.KeepsOrder ⟨none, none, some [[98]]⟩ := ⟨rfl, Or.inl (by decide)⟩
  have hs : sortedChoice.generate .generic ⟨none, none, some [[98]]⟩ =
      .ok [.statement (Text.join "\n" ["SELECT \"b\"", "FROM (", "  SELECT \"b\", \"c\"",
        "  FROM \"t\"", ") relq_1", "ORDER BY \"c\""])] := by cbv
  obtain ⟨sql, hlast, hends, -⟩ := generate_keeps_order built_sortedChoice hterms hs
  exact ⟨built_sortedChoice, hterms, hkeeps, _, hs, sql, hlast, hends hkeeps⟩

theorem generate_sortedChoice_limited :
    sortedChoice.generate .generic ⟨some 3, none, none⟩ =
      .ok [.statement (Text.join "\n"
        ["SELECT \"a\", \"b\"", "FROM (", "  SELECT \"a\", \"b\"", "  FROM (",
          "    SELECT \"a\", \"b\", \"c\"", "    FROM \"t\"", "  ) relq_1", "  ORDER BY \"c\"",
          ") relq_2", "LIMIT 3"])] := by
  cbv

theorem generate_sortedChoice_turned :
    sortedChoice.generate .generic ⟨none, none, some [[98], [97]]⟩ =
      .ok [.statement (Text.join "\n"
        ["SELECT \"b\", \"a\"", "FROM (", "  SELECT \"a\", \"b\"", "  FROM (",
          "    SELECT \"a\", \"b\", \"c\"", "    FROM \"t\"", "  ) relq_1", "  ORDER BY \"c\"",
          ") relq_2"])] := by
  cbv

/-- At most three rows of the choice, and its columns the other way round: both put a SELECT on top of
the choice, and the ordering ends up inside a subquery. -/
theorem generate_buries_order :
    sortedChoice.Built ∧ sortedChoice.rowOrder = ⟨[⟨[99], false⟩], none⟩ ∧
      (∃ sql, sortedChoice.generate .generic ⟨some 3, none, none⟩ = .ok [.statement sql] ∧
        ¬RowOrder.print .generic ⟨[⟨[99], false⟩], some 3⟩ <:+ sql) ∧
      ∃ sql, sortedChoice.generate .generic ⟨none, none, some [[98], [97]]⟩ = .ok [.statement sql] ∧
        ¬RowOrder.print .generic ⟨[⟨[99], false⟩], none⟩ <:+ sql :=
  ⟨built_sortedChoice, rfl, ⟨_, generate_sortedChoice_limited, by decide +kernel⟩,
    _, generate_sortedChoice_turned, by decide +kernel⟩

end Tree

end SqlPipeline
