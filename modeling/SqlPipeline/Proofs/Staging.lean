import SqlPipeline.Digest
import SqlPipeline.Proofs.Sources

/-!
# Names of staging tables

A quantile summary works between two tables. When it is given no names for them it
makes them from a key: the source in plain notation and the specification, through a
digest. There is no counter, so that building a summary again gives the same names.

Every occurrence of a summary in a tree becomes a pair of steps of its own. Whether
the steps of a tree get in each other's way is therefore decided by the keys: if the
digest keeps the keys apart, two occurrences share their tables exactly if they have the
same key. One summary used in two places has the same key in both. Two specifications
have the same key when their columns come out the same with commas between them.
-/

namespace SqlPipeline

namespace Quantile

variable {digest : Text → Text} {a b : Text}

/-- The incoming table of a summary with the key. -/
def incomingOf (digest : Text → Text) (key : Text) : Text := "relq_quantile_" ++ digest key ++ "_in"

/-- The outgoing table of a summary with the key. -/
def outgoingOf (digest : Text → Text) (key : Text) : Text := "relq_quantile_" ++ digest key ++ "_out"

theorem incomingOf_eq_iff : incomingOf digest a = incomingOf digest b ↔ digest a = digest b := by
  rw [incomingOf, incomingOf, List.append_left_inj, List.append_right_inj]

theorem outgoingOf_eq_iff : outgoingOf digest a = outgoingOf digest b ↔ digest a = digest b := by
  rw [outgoingOf, outgoingOf, List.append_left_inj, List.append_right_inj]

/-- No incoming table is an outgoing one: they end differently. -/
theorem incomingOf_ne_outgoingOf : incomingOf digest a ≠ outgoingOf digest b := by
  intro h
  have hin : (incomingOf digest a).getLast? = some 110 := by
    rw [incomingOf, List.getLast?_append]
    rfl
  have hout : (outgoingOf digest b).getLast? = some 116 := by
    rw [outgoingOf, List.getLast?_append]
    rfl
  rw [h, hout] at hin
  exact absurd hin (by decide)

/-- The node of a summary. -/
def node (digest : Text → Text) (tag : Text) (source : Tree) (spec : QuantileSpec) : Tree :=
  let spec := resolve digest source spec
  .externalTransform source spec.columns (spec.probsName :: spec.columns)
    ⟨tag, "quantile", script spec⟩ spec.incoming spec.outgoing spec.temporary

end Quantile

/-- **When a summary can be built**, and what it is. -/
theorem Pipeline.quantile_ok_iff {digest : Text → Text} {tag : Text} {source t : Tree}
    {spec : QuantileSpec} :
    Pipeline.quantile digest tag source spec = .ok t ↔
      let full := Quantile.resolve digest source spec
      requireColumns .quantile source.schema full.columns = .ok () ∧
        requireUnique .quantileColumns full.columns = .ok () ∧
        full.probsName ≠ [] ∧ Quantile.requireNames full.probsName full.columns = .ok () ∧
        full.probs ≠ [] ∧ Quantile.requireProbabilities full.probs = .ok () ∧
        TransformChecks source.schema full.columns (full.probsName :: full.columns) full.incoming
          full.outgoing ∧
        t = Quantile.node digest tag source spec := by
  simp only [Pipeline.quantile, guard_ok_iff, bind_ok_iff, externalTransform_ok_iff,
    Option.some.injEq, List.isEmpty_iff]
  constructor
  · intro h
    obtain ⟨_, hcolumns, _, hunique, hname, _, hnames, hprobs, _, hrange, _, rfl, hc, rfl⟩ := h
    exact ⟨hcolumns, hunique, hname, hnames, hprobs, hrange, hc, rfl⟩
  · intro h
    obtain ⟨hcolumns, hunique, hname, hnames, hprobs, hrange, hc, rfl⟩ := h
    exact ⟨(), hcolumns, (), hunique, hname, (), hnames, hprobs, (), hrange, _, rfl, hc, rfl⟩

/-- The work is a summary, on whatever input is left to it, whose tables have got their names from the
key. -/
def Delegation.Summarizes (digest : Text → Text) (work : Delegation) (key : Text) : Prop :=
  ∃ tag source spec node made, spec.incoming = [] ∧ spec.outgoing = [] ∧
    Pipeline.quantile digest tag source spec = .ok node ∧ node.delegation? = some made ∧
    made.SameWork work ∧ key = Quantile.stagingKey source (Quantile.resolve digest source spec)

/-- The names of the tables are those of the key. -/
theorem Delegation.Summarizes.tables {digest : Text → Text} {work : Delegation} {key : Text}
    (h : work.Summarizes digest key) :
    work.incoming = Quantile.incomingOf digest key ∧ work.outgoing = Quantile.outgoingOf digest key := by
  obtain ⟨tag, source, spec, node, made, hin, hout, hbuilt, hmade, ⟨other, rfl⟩, rfl⟩ := h
  obtain ⟨-, -, -, -, -, -, -, rfl⟩ := Pipeline.quantile_ok_iff.mp hbuilt
  obtain rfl := Option.some.inj hmade
  -- the key does not look at the names, so it is the same before and after they are filled in
  constructor
  · simp only [Quantile.resolve, hin, List.isEmpty_nil, if_true]
    rfl
  · simp only [Quantile.resolve, hout, List.isEmpty_nil, if_true]
    rfl

/-- Names made from keys repeat exactly if the keys do, as long as the digest keeps the keys apart. -/
theorem nodup_made_iff {digest name : Text → Text} {keys : List Text}
    (hd : ∀ a ∈ keys, ∀ b ∈ keys, digest a = digest b → a = b)
    (hname : ∀ {a b : Text}, name a = name b ↔ digest a = digest b) :
    (keys.map name).Nodup ↔ keys.Nodup :=
  ⟨List.Nodup.of_map name,
    List.Nodup.map_on fun a ha b hb he => hd a ha b hb (hname.mp he)⟩

namespace Tree

variable {t : Tree} {d : Dialect} {options : GenerateOptions} {steps : List Step}

/--
**When staging tables clash.**

Let all the delegated work of a tree be summaries that were given no names, and let the digest keep their
keys apart. The steps then make one incoming table and one outgoing table for each occurrence of a summary
in the tree, with the names of its key. No incoming table is an outgoing one. The incoming tables are all
different exactly if the keys are, and so are the outgoing tables. A summary that stands in the tree twice
is therefore staged twice in the same tables.
-/
theorem generate_stagings_apart_iff {digest : Text → Text} {keys : List Text} (h : t.Built)
    (hk : List.Forall₂ (Delegation.Summarizes digest) t.delegations keys)
    (hd : ∀ a ∈ keys, ∀ b ∈ keys, digest a = digest b → a = b)
    (hs : t.generate d options = .ok steps) :
    ∃ works queries root, works.length = queries.length ∧
      steps = Delegation.steps d works queries ++ [.statement root] ∧
      works.map Delegation.incoming = keys.map (Quantile.incomingOf digest) ∧
      works.map Delegation.outgoing = keys.map (Quantile.outgoingOf digest) ∧
      ((works.map Delegation.incoming).Nodup ↔ keys.Nodup) ∧
      ((works.map Delegation.outgoing).Nodup ↔ keys.Nodup) ∧
      ∀ name ∈ works.map Delegation.incoming, name ∉ works.map Delegation.outgoing := by
  obtain ⟨T, root, progress, hT, -, hstaged, hsteps⟩ := generate_parts hs
  have hsame := prepare_delegations h.valid hT
  -- narrowing keeps the work of every delegation, so the names are those of the keys
  have hin : T.delegations.map Delegation.incoming = keys.map (Quantile.incomingOf digest) :=
    calc T.delegations.map Delegation.incoming
        = t.delegations.map Delegation.incoming :=
          (map_eq_map_of_forall₂ (hsame.imp fun _ _ ⟨_, he⟩ => he ▸ rfl)).symm
      _ = keys.map (Quantile.incomingOf digest) :=
          map_eq_map_of_forall₂ (hk.imp fun _ _ hw => hw.tables.1)
  have hout : T.delegations.map Delegation.outgoing = keys.map (Quantile.outgoingOf digest) :=
    calc T.delegations.map Delegation.outgoing
        = t.delegations.map Delegation.outgoing :=
          (map_eq_map_of_forall₂ (hsame.imp fun _ _ ⟨_, he⟩ => he ▸ rfl)).symm
      _ = keys.map (Quantile.outgoingOf digest) :=
          map_eq_map_of_forall₂ (hk.imp fun _ _ hw => hw.tables.2)
  refine ⟨T.delegations, progress.stages.map Sql.Stage.query, root.print d 0, ?_, hsteps, hin, hout,
    ?_, ?_, ?_⟩
  · rw [List.length_map, hstaged.length_eq]
  · rw [hin]
    exact nodup_made_iff hd Quantile.incomingOf_eq_iff
  · rw [hout]
    exact nodup_made_iff hd Quantile.outgoingOf_eq_iff
  · intro name hn hn'
    rw [hin] at hn
    rw [hout] at hn'
    -- the two kinds of names differ whatever the digest gives
    obtain ⟨a, -, rfl⟩ := List.mem_map.mp hn
    obtain ⟨b, -, he⟩ := List.mem_map.mp hn'
    exact Quantile.incomingOf_ne_outgoingOf he.symm

/-! ## Summaries apart, and the same one twice -/

/-- The least value of each of the columns, under names that are made. -/
def minimumSpec (columns : List Text) (temporary : Bool) : QuantileSpec :=
  ⟨columns, [.ofNat 0], [112], temporary, [], []⟩

/-- The summary of that specification. -/
def minimum (source : Tree) (columns : List Text) (temporary : Bool) : Tree :=
  Quantile.node Digest.hex [113] source (minimumSpec columns temporary)

/-- Its key. -/
def minimumKey (source : Tree) (columns : List Text) (temporary : Bool) : Text :=
  Quantile.stagingKey source (Quantile.resolve Digest.hex source (minimumSpec columns temporary))

section Minimum

variable {source : Tree} {columns : List Text} {temporary : Bool}

theorem quantile_minimum (hne : columns.isEmpty = false)
    (hknown : Pipeline.requireColumns .quantile source.schema columns = .ok ())
    (hunique : Pipeline.requireUnique .quantileColumns columns = .ok ())
    (hnames : Quantile.requireNames [112] columns = .ok ()) (hnamed : Named ([112] :: columns)) :
    Pipeline.quantile Digest.hex [113] source (minimumSpec columns temporary) =
      .ok (minimum source columns temporary) := by
  -- the only probability asked for is zero, which is in range
  have hzero : Quantile.requireProbabilities [.ofNat 0] = .ok () := by
    have hrange : (!(Binary64.ofNat 0).isFinite || (Binary64.ofNat 0).lt (.ofNat 0) ||
        (Binary64.ofNat 1).lt (.ofNat 0)) = false := by decide +kernel
    simp only [Quantile.requireProbabilities, hrange]
    rfl
  have hcolumns : (Quantile.resolve Digest.hex source (minimumSpec columns temporary)).columns =
      columns := by
    simp only [Quantile.resolve, minimumSpec, hne]
    rfl
  refine Pipeline.quantile_ok_iff.mpr ?_
  simp only [hcolumns]
  refine ⟨hknown, hunique, List.cons_ne_nil _ _, hnames, List.cons_ne_nil _ _, hzero, ?_, rfl⟩
  exact ⟨List.cons_ne_nil _ _, List.cons_ne_nil _ _, Quantile.incomingOf_ne_outgoingOf,
    List.cons_ne_nil _ _, Pipeline.requireColumns_eq_ok.mp hknown,
    hnamed.sublist (List.sublist_cons_self _ _), hnamed⟩

/-- Two such summaries of one table side by side. -/
theorem summarizes_pair {table : Table} {columns' : List Text} {temporary' : Bool}
    (h : Pipeline.quantile Digest.hex [113] (.table table) (minimumSpec columns temporary) =
      .ok (minimum (.table table) columns temporary))
    (h' : Pipeline.quantile Digest.hex [113] (.table table) (minimumSpec columns' temporary') =
      .ok (minimum (.table table) columns' temporary')) (type : JoinType) :
    List.Forall₂ (Delegation.Summarizes Digest.hex)
      (naturalJoin (minimum (.table table) columns temporary)
        (minimum (.table table) columns' temporary') type).delegations
      [minimumKey (.table table) columns temporary, minimumKey (.table table) columns' temporary'] := by
  rw [delegations_eq rfl]
  simp only [children, List.flatMap_cons, List.flatMap_nil, minimum, Quantile.node,
    delegations_externalTransform, delegations_eq (t := .table table) rfl, List.nil_append,
    List.append_nil, List.singleton_append]
  exact .cons ⟨_, _, _, _, _, rfl, rfl, h, rfl, ⟨_, rfl⟩, rfl⟩
    (.cons ⟨_, _, _, _, _, rfl, rfl, h', rfl, ⟨_, rfl⟩, rfl⟩ .nil)

end Minimum

/-- `m(x, y)`. -/
def measured : Tree := .table ⟨[109], [[120], [121]], none⟩

theorem quantile_measured (temporary : Bool) :
    Pipeline.quantile Digest.hex [113] measured (minimumSpec [[120]] temporary) =
      .ok (minimum measured [[120]] temporary) :=
  quantile_minimum rfl rfl rfl rfl ⟨by decide, by decide⟩

/-- The least `x` of `m` beside another summary of it. -/
def minimumPair (temporary : Bool) : Tree :=
  .naturalJoin (minimum measured [[120]] true) (minimum measured [[120]] temporary) .inner

theorem built_minimumPair (temporary : Bool) : (minimumPair temporary).Built := by
  have hm : measured.Built := .table (show Pipeline.table [109] [[120], [121]] none = _ from rfl)
  have hj : Pipeline.naturalJoin (minimum measured [[120]] true) (minimum measured [[120]] temporary)
      .inner = .ok (minimumPair temporary) :=
    Pipeline.naturalJoin_ok_iff.mpr
      ⟨(by decide : sharedColumns [[112], [120]] [[112], [120]] ≠ []), rfl⟩
  exact .naturalJoin (.quantile hm (quantile_measured true)) (.quantile hm (quantile_measured temporary))
    hj

/-- A temporary and a permanent table for the same summary: the keys differ in their last byte. -/
theorem generate_stagings_apart_iff_minimumPair :
    (minimumPair false).Built ∧
      List.Forall₂ (Delegation.Summarizes Digest.hex) (minimumPair false).delegations
        [minimumKey measured [[120]] true, minimumKey measured [[120]] false] ∧
      [minimumKey measured [[120]] true, minimumKey measured [[120]] false].Nodup ∧
      ∃ steps, (minimumPair false).generate .generic ⟨none, none, none⟩ = .ok steps ∧
        ∃ works queries root, works.length = queries.length ∧
          steps = Delegation.steps .generic works queries ++ [.statement root] ∧
          (works.map Delegation.incoming).Nodup ∧ (works.map Delegation.outgoing).Nodup ∧
          ∀ name ∈ works.map Delegation.incoming, name ∉ works.map Delegation.outgoing := by
  have hk := summarizes_pair (quantile_measured true) (quantile_measured false) .inner
  have hhex : (Digest.hex (minimumKey measured [[120]] true) ==
      Digest.hex (minimumKey measured [[120]] false)) = false := by cbv
  have hapart := ne_of_beq_false hhex
  have hkeys : [minimumKey measured [[120]] true, minimumKey measured [[120]] false].Nodup := by
    simpa using fun he => hapart (congrArg Digest.hex he)
  have hd : ∀ a ∈ [minimumKey measured [[120]] true, minimumKey measured [[120]] false],
      ∀ b ∈ [minimumKey measured [[120]] true, minimumKey measured [[120]] false],
        Digest.hex a = Digest.hex b → a = b := by
    intro a ha b hb he
    rcases List.mem_pair.mp ha with rfl | rfl
    · rcases List.mem_pair.mp hb with rfl | rfl
      · rfl
      · exact absurd he hapart
    · rcases List.mem_pair.mp hb with rfl | rfl
      · exact absurd he.symm hapart
      · rfl
  obtain ⟨steps, hs⟩ :
      ∃ steps, (minimumPair false).generate .generic ⟨none, none, none⟩ = .ok steps := ⟨_, by cbv⟩
  obtain ⟨works, queries, root, hlength, hsteps, -, -, hin, hout, hcross⟩ :=
    generate_stagings_apart_iff (built_minimumPair false) hk hd hs
  exact ⟨built_minimumPair false, hk, hkeys, steps, hs, works, queries, root, hlength, hsteps,
    hin.mpr hkeys, hout.mpr hkeys, hcross⟩

/-- `t("a,b", a, b)`. -/
def commaTable : Tree := .table ⟨[116], [[97, 44, 98], [97], [98]], none⟩

/-- The summary of the column `a,b` beside the summary of the columns `a` and `b`. -/
def commaPair : Tree :=
  .naturalJoin (minimum commaTable [[97, 44, 98]] true) (minimum commaTable [[97], [98]] true) .inner

/--
**Staging tables do clash.** One summary on both sides of a join is staged by the same statement twice. Two
summaries of different columns, which are two different nodes, are called between the same two tables; the
digest is not to blame, since their keys are the same already.
-/
theorem generate_stages_twice :
    ((minimumPair true).Built ∧
      List.Forall₂ (Delegation.Summarizes Digest.hex) (minimumPair true).delegations
        [minimumKey measured [[120]] true, minimumKey measured [[120]] true] ∧
      ∃ sql call last, (minimumPair true).generate .generic ⟨none, none, none⟩ =
        .ok [.statement sql, call, .statement sql, call, last]) ∧
    commaPair.Built ∧
      List.Forall₂ (Delegation.Summarizes Digest.hex) commaPair.delegations
        [minimumKey commaTable [[97, 44, 98]] true, minimumKey commaTable [[97], [98]] true] ∧
      minimumKey commaTable [[97, 44, 98]] true = minimumKey commaTable [[97], [98]] true ∧
      ∃ first first' second second' incoming outgoing last,
        commaPair.generate .generic ⟨none, none, none⟩ =
          .ok [.statement first, .transform incoming outgoing second, .statement first',
            .transform incoming outgoing second', last] := by
  have hleft : Pipeline.quantile Digest.hex [113] commaTable (minimumSpec [[97, 44, 98]] true) =
      .ok (minimum commaTable [[97, 44, 98]] true) :=
    quantile_minimum rfl rfl rfl rfl ⟨by decide, by decide⟩
  have hright : Pipeline.quantile Digest.hex [113] commaTable (minimumSpec [[97], [98]] true) =
      .ok (minimum commaTable [[97], [98]] true) :=
    quantile_minimum rfl rfl rfl rfl ⟨by decide, by decide⟩
  have ht : commaTable.Built :=
    .table (show Pipeline.table [116] [[97, 44, 98], [97], [98]] none = _ from rfl)
  have hj : Pipeline.naturalJoin (minimum commaTable [[97, 44, 98]] true)
      (minimum commaTable [[97], [98]] true) .inner = .ok commaPair :=
    Pipeline.naturalJoin_ok_iff.mpr
      ⟨(by decide : sharedColumns [[112], [97, 44, 98]] [[112], [97], [98]] ≠ []), rfl⟩
  refine ⟨⟨built_minimumPair true, summarizes_pair (quantile_measured true) (quantile_measured true) _,
      ⟨_, _, _, by cbv⟩⟩, .naturalJoin (.quantile ht hleft) (.quantile ht hright) hj,
    summarizes_pair hleft hright _, by cbv, ⟨_, _, _, _, _, _, _, by cbv⟩⟩

end Tree

end SqlPipeline
