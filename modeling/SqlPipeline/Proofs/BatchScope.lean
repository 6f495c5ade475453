import SqlPipeline.Proofs.Capabilities
import SqlPipeline.Proofs.FewestStages

/-!
# Which batches have stages

A pass that places nothing ends `partition` with an error. That is a fact about a run.
Here it is a fact about the batch: a run ends so exactly if an assignment reads a name
that is neither a column nor written before it. Such a name never becomes available,
because whoever writes it later may not overtake its reader; and in a batch without
one the first assignment that is left can always be placed.

An extension checks its names in that order before it asks for stages, so it has
stages by then and no error about them is ever seen.
-/

namespace SqlPipeline

/-- Some assignment reads a name that is not available and that no assignment before it writes. -/
def ReadsAhead (available : List Text) (as : List Assignment) : Prop :=
  ∃ before a after, as = before ++ a :: after ∧
    ∃ name ∈ a.reads, name ∉ available ∧ name ∉ before.map Assignment.target

/-- The stages are the batch cut up: no stage is empty or writes a column twice, each assignment stands in
one stage as often as in the batch, and each stage lists the assignments of its places in their order. -/
structure Cuts (as : List Assignment) (stages : List (List Assignment)) : Prop where
  nonempty : ∀ stage ∈ stages, stage ≠ []
  distinct : ∀ stage ∈ stages, (stage.map Assignment.target).Nodup
  sublist : ∀ stage ∈ stages, stage.Sublist as
  perm : stages.flatten.Perm as
  /-- Also where the batch holds the same assignment twice. -/
  placed : ∃ group : Fin as.length → Nat, (∀ i, group i < stages.length) ∧
    stages = (List.range stages.length).map (stageOf as group)

/-! ## Scope of a batch -/

/-- Scope is decided from the first assignment on. -/
instance decidableScoped : (visible : List Text) → (as : List Assignment) →
    Decidable (Scoped visible as)
  | _, [] => inferInstanceAs (Decidable True)
  | visible, a :: rest =>
    have := decidableScoped (a.target :: visible) rest
    inferInstanceAs (Decidable ((∀ name ∈ a.reads, name ∈ visible) ∧
      Scoped (a.target :: visible) rest))

section Scope

variable {available : List Text} {as : List Assignment} {stages : List (List Assignment)}

/-- A batch is in scope if nothing in it reads ahead. -/
theorem scoped_iff_not_readsAhead : Scoped available as ↔ ¬ReadsAhead available as := by
  constructor
  · rintro h ⟨before, a, after, rfl, name, hread, hunknown, hunwritten⟩
    obtain ⟨-, hreads, -⟩ := scoped_append.mp h
    rcases List.mem_append.mp (hreads name hread) with hin | hin
    · exact hunknown hin
    · exact hunwritten hin
  · intro h
    -- the targets before an assignment become available one by one
    induction as generalizing available with
    | nil => trivial
    | cons a rest ih =>
      refine ⟨fun name hread => ?_, ih ?_⟩
      · by_contra hunknown
        exact h ⟨[], a, rest, rfl, name, hread, hunknown, List.not_mem_nil⟩
      · rintro ⟨before, b, after, rfl, name, hread, hunknown, hunwritten⟩
        obtain ⟨hne, hunknown⟩ := not_or.mp (List.mem_cons.not.mp hunknown)
        refine h ⟨a :: before, b, after, rfl, name, hread, hunknown, ?_⟩
        rw [List.map_cons, List.mem_cons, not_or]
        exact ⟨hne, hunwritten⟩

instance : Decidable (ReadsAhead available as) :=
  decidable_of_iff (¬Scoped available as) (by rw [scoped_iff_not_readsAhead, not_not])

/-- A batch that has stages is in scope. -/
theorem scoped_of_partition (h : partition available as = .ok stages) : Scoped available as := by
  rw [scoped_iff_not_readsAhead]
  rintro ⟨before, a, after, rfl, name, hread, hunknown, hunwritten⟩
  set as := before ++ a :: after with has
  have hlength : before.length < as.length := by simp [has]
  have hself : as.get ⟨before.length, hlength⟩ = a := by simp [has]
  have hplaces : partition available ((List.finRange as.length).map as.get) = .ok stages := by
    rwa [List.map_get_finRange]
  -- places keep apart assignments that are written in the same way
  have hearlier := readsEarlier_of_partition (List.pairwise_lt_finRange _) hplaces
    ⟨before.length, hlength⟩ (List.mem_finRange _) name (hself ▸ hread)
  rcases hearlier with hin | ⟨i, -, hi, htarget⟩
  · exact hunknown hin
  · have hi : i.val < before.length := hi
    refine hunwritten (List.mem_map.mpr ⟨as.get i, ?_, htarget⟩)
    simp only [has, List.get_eq_getElem, List.getElem_append_left hi]
    exact List.getElem_mem hi

/-- The only error of a partition is about assignments that cannot be ordered. -/
theorem partition_error {e : Error} (h : partition available as = .error e) :
    ∃ stuck, e = .circularAssignments stuck := by
  -- only the pass that places nothing fails; any other hands on the error of the rest
  fun_induction partition available as with
  | case1 => cases h
  | case2 available as hne cut hnone =>
    cases h
    exact ⟨_, rfl⟩
  | case3 available as hne cut hplaced ih =>
    cases hrest : partition (available ++ cut.1.map Assignment.target) cut.2 with
    | ok stages =>
      rw [hrest] at h
      cases h
    | error e' =>
      rw [hrest] at h
      cases h
      exact ih hrest

/-- A batch has no stages exactly if something in it reads ahead. -/
theorem partition_error_iff : (∃ e, partition available as = .error e) ↔ ReadsAhead available as := by
  constructor
  · rintro ⟨e, h⟩
    by_contra hscope
    obtain ⟨stages, hstages⟩ := partition_of_scoped (scoped_iff_not_readsAhead.mpr hscope)
    rw [hstages] at h
    cases h
  · intro hahead
    cases h : partition available as with
    | ok stages => exact absurd hahead (scoped_iff_not_readsAhead.mp (scoped_of_partition h))
    | error e => exact ⟨e, rfl⟩

/-- **Stages cut up the batch.** -/
theorem cuts_partition (h : partition available as = .ok stages) : Cuts as stages := by
  have hplaces : partition available ((List.finRange as.length).map as.get) = .ok stages := by
    rwa [List.map_get_finRange]
  obtain ⟨group, hg⟩ := partition_grouping (List.pairwise_lt_finRange _) hplaces
  -- the groups of the places say more than the stages: which place went where
  have hstage : ∀ stage ∈ stages, ∃ k < stages.length, stageOf as group k = stage := by
    intro stage hs
    rw [hg.stages_eq] at hs
    obtain ⟨k, hk, rfl⟩ := List.mem_map.mp hs
    exact ⟨k, List.mem_range.mp hk, rfl⟩
  refine ⟨fun stage hs => ?_, partition_nodup_targets h, fun stage hs => ?_, partition_perm h,
    group, fun i => hg.lt i (List.mem_finRange i), hg.stages_eq⟩
  · obtain ⟨k, hk, rfl⟩ := hstage stage hs
    obtain ⟨i, hi, hgroup⟩ := hg.occupied k hk
    refine List.ne_nil_of_mem (List.mem_map_of_mem (List.mem_filter.mpr ⟨hi, ?_⟩))
    exact decide_eq_true hgroup
  · obtain ⟨k, -, rfl⟩ := hstage stage hs
    have hsub : (stageOf as group k).Sublist ((List.finRange as.length).map as.get) :=
      List.Sublist.map _ List.filter_sublist
    rwa [List.map_get_finRange] at hsub

end Scope

/-! ## Errors of an extension -/

namespace Pipeline

open Sql (Judged)

theorem judged_requireColumns (place : Place) (columns names : List Text) :
    Judged (requireColumns place columns names) (∀ name ∈ names, name ∈ columns)
      (fun e => e.family = .schema) := by
  refine ⟨fun h => requireColumns_eq_ok.mp h, fun {e} h => ?_⟩
  unfold requireColumns at h
  split at h
  · cases h
    rfl
  · cases h

theorem judged_requireNoInput (kind : OperatorKind) (e : Expr) :
    Judged (requireNoInput kind e) True (fun e => e.family = .schema) := by
  unfold requireNoInput
  split
  · exact .of_error rfl
  · exact .of_ok trivial

theorem judged_requireUnassigned (targets window : List Text) :
    Judged (requireUnassigned targets window) True (fun e => e.family = .schema) := by
  unfold requireUnassigned
  split
  · exact .of_error rfl
  · exact .of_ok trivial

theorem judged_requireUnique (place : Place) (names : List Text) :
    Judged (requireUnique place names) True (fun e => e.family = .schema) := by
  unfold requireUnique
  split
  · exact .of_error rfl
  · split
    · exact .of_error rfl
    · exact .of_ok trivial

/-- What passes the check of a batch is in scope. -/
theorem judged_requireAssignments (visible : List Text) (as : List Assignment) :
    Judged (requireAssignments visible as) (Scoped visible as) (fun e => e.family = .schema) := by
  induction as generalizing visible with
  | nil => exact .of_ok trivial
  | cons a rest ih =>
    rw [requireAssignments]
    split
    · exact .of_error rfl
    · refine (judged_requireNoInput .extend a.expr).bind fun _ _ => ?_
      refine (judged_requireColumns (.operator .extend) visible a.reads).bind fun hreads _ => ?_
      have hrest := ih (Text.appendNew visible [a.target])
      exact ⟨fun h => ⟨hreads, (hrest.ok h).mono (by simp [or_comm])⟩, hrest.error⟩

/-- Where the names of a batch are in scope there is nothing wrong with its stages. -/
theorem judged_partition {columns : List Text} {as : List Assignment} (h : Scoped columns as) :
    Judged (partition columns as) True (fun e => e.family = .schema) := by
  obtain ⟨stages, hstages⟩ := partition_of_scoped h
  rw [hstages]
  exact .of_ok trivial

/-- Every error of an extension is about a name. -/
theorem judged_extend (source : Tree) (as : List Assignment) (partitionBy : List Text)
    (orderBy : List OrderTerm) :
    Judged (extend source as partitionBy orderBy) True (fun e => e.family = .schema) := by
  unfold extend
  split
  · exact .of_error rfl
  · refine (judged_requireAssignments source.schema as).bind fun hscope _ => ?_
    refine (judged_requireColumns _ _ _).bind fun _ _ => ?_
    refine (judged_requireUnassigned _ _).bind fun _ _ => ?_
    refine (judged_requireUnique _ _).bind fun _ _ => ?_
    exact (judged_partition hscope).bind fun _ _ => .of_ok trivial

end Pipeline

/--
**Partitioning fails exactly on batches that read ahead, and loses nothing.**

Every batch has stages or an error. It has an error exactly if some assignment reads a name that is
neither available nor written before it, and then the error is about the order of assignments. All other
batches are cut up into stages: none is empty, none writes a column twice, each keeps the order of the
batch, and together they hold each assignment as often as the batch does. An extension never ends in
that error, whatever its source and its window are: its errors are about names.
-/
theorem partition_fails_on_reads_ahead (available : List Text) (as : List Assignment) :
    ((∃ e, partition available as = .error e) ↔ ReadsAhead available as) ∧
      (∀ e, partition available as = .error e → e.family = .partition) ∧
      (¬ReadsAhead available as →
        ∃ stages, partition available as = .ok stages ∧ Cuts as stages) ∧
      ∀ source partitionBy orderBy e,
        Pipeline.extend source as partitionBy orderBy = .error e → e.family = .schema := by
  refine ⟨partition_error_iff, fun e h => ?_, fun h => ?_, fun source partitionBy orderBy e h => ?_⟩
  · obtain ⟨stuck, rfl⟩ := partition_error h
    rfl
  · obtain ⟨stages, hstages⟩ := partition_of_scoped (scoped_iff_not_readsAhead.mpr h)
    exact ⟨stages, hstages, cuts_partition hstages⟩
  · exact (Pipeline.judged_extend source as partitionBy orderBy).error h

/-- `scratchBatch` has stages over the columns `a` and `b`. Over `a` alone its third assignment reads
ahead, and an extension of `t(a)` by it fails with an error about a name. -/
theorem partition_fails_on_reads_ahead_scratch :
    ¬ReadsAhead [[97], [98]] scratchBatch ∧
      (∃ stages, partition [[97], [98]] scratchBatch = .ok stages ∧ Cuts scratchBatch stages) ∧
      ReadsAhead [[97]] scratchBatch ∧
      (∃ e, partition [[97]] scratchBatch = .error e ∧ e.family = .partition) ∧
      ∃ e, Pipeline.extend (.table ⟨[116], [[97]], none⟩) scratchBatch [] [] = .error e ∧
        e.family = .schema := by
  have hscope : ¬ReadsAhead [[97], [98]] scratchBatch := by decide
  have hahead : ReadsAhead [[97]] scratchBatch := by decide
  obtain ⟨-, -, hstages, -⟩ := partition_fails_on_reads_ahead [[97], [98]] scratchBatch
  obtain ⟨hiff, hfamily, -, hextend⟩ := partition_fails_on_reads_ahead [[97]] scratchBatch
  obtain ⟨e, he⟩ := hiff.mpr hahead
  refine ⟨hscope, hstages hscope, hahead, ⟨e, he, hfamily e he⟩, ?_⟩
  obtain ⟨e', he'⟩ : ∃ e', Pipeline.extend (.table ⟨[116], [[97]], none⟩) scratchBatch [] [] =
      .error e' := ⟨_, rfl⟩
  exact ⟨e', he', hextend _ _ _ e' he'⟩

end SqlPipeline
