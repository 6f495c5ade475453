import SqlPipeline.Proofs.Stages

/-!
# No staging is earlier

Any way to run a batch in stages gives each of its assignments a stage number. For
two assignments of the batch the numbers have to keep apart what the one writes and
the other reads or writes: `InOrder` says how. This file shows that `partition` is the
earliest of all of them. Each assignment stands in a stage whose number is at most
the number that it has in any other staging, so no staging does with fewer stages.

A batch can hold the same assignment twice, so the argument is about the places of a
batch and not about its assignments. One pass decides for each place whether its
assignment joins the stage. `Partition.Decides` is that decision, read off from what
was decided at the places before it. An assignment that another staging puts first
never has to wait: everything before it that is in its way would have a smaller
number there, and no number is smaller. What the first pass has left is a batch of
its own, in which every other staging has a number less to give.
-/

namespace SqlPipeline

/-- What two assignments, the earlier one first, ask of their stage numbers. -/
structure InOrder (earlier later : Assignment) (m n : Nat) : Prop where
  /-- What is read or overwritten has to be there. -/
  after : earlier.target ∈ later.reads ∨ earlier.target = later.target → m < n
  /-- What is read must not be overwritten before; in one stage it is not. -/
  notBefore : later.target ∈ earlier.reads → m ≤ n

/-- Where nothing is in the way, every two numbers are in order. -/
theorem InOrder.of_mayOvertake {earlier later : Assignment}
    (h : Partition.mayOvertake later earlier = true) (m n : Nat) : InOrder earlier later m n := by
  obtain ⟨htarget, hreads, hread⟩ := Partition.mayOvertake_iff.mp h
  refine ⟨fun hc => ?_, fun hc => absurd hc hread⟩
  rcases hc with hc | hc
  · exact absurd hc hreads
  · exact absurd hc.symm htarget

section Places

variable {n : Nat} {batch : Fin n → Assignment} {available : List Text} {places : List (Fin n)}

/-- Stage numbers that are in order at the given places of a batch. -/
def StagedOn (batch : Fin n → Assignment) (places : List (Fin n)) (stage : Fin n → Nat) : Prop :=
  ∀ i ∈ places, ∀ j ∈ places, i < j → InOrder (batch i) (batch j) (stage i) (stage j)

/-- What the assignments at the given places read is available, or an earlier one of them writes it. -/
def ReadsEarlier (batch : Fin n → Assignment) (available : List Text) (places : List (Fin n)) : Prop :=
  ∀ j ∈ places, ∀ name ∈ (batch j).reads,
    name ∈ available ∨ ∃ i ∈ places, i < j ∧ (batch i).target = name

namespace Partition

theorem pass_append (available : List Text) (as bs placed left : List Assignment) :
    pass available placed left (as ++ bs) =
      pass available (pass available placed left as).1 (pass available placed left as).2 bs := by
  induction as generalizing placed left with
  | nil => rfl
  | cons a rest ih =>
    rw [List.cons_append, pass, pass]
    split
    · exact ih (placed ++ [a]) left
    · exact ih placed (left ++ [a])

/-- Nothing at an earlier place is in the way of an assignment: what has joined the stage neither writes
what it reads nor what it writes, and what has not joined may be overtaken. -/
def Clear (batch : Fin n → Assignment) (joins : Fin n → Bool) (a : Assignment) (i : Fin n) : Prop :=
  (joins i = true → (batch i).target ∉ a.reads ∧ (batch i).target ≠ a.target) ∧
    (joins i = false → mayOvertake a (batch i) = true)

/-- What a pass over the given places decides: which of them join the stage. -/
structure Decides (batch : Fin n → Assignment) (available : List Text) (places : List (Fin n))
    (joins : Fin n → Bool) : Prop where
  pass_eq : pass available [] [] (places.map batch) =
    ((places.filter joins).map batch, (places.filter fun i => !joins i).map batch)
  joins_iff : ∀ j ∈ places, joins j = true ↔
    (∀ name ∈ (batch j).reads, name ∈ available) ∧
      ∀ i ∈ places, i < j → Clear batch joins (batch j) i

/-- An assignment fits in if what it reads is available and nothing at the places before is in its
way. -/
theorem fits_places_iff {joins : Fin n → Bool} {a : Assignment} :
    fits available ((places.filter joins).map batch) ((places.filter fun i => !joins i).map batch) a =
        true ↔
      (∀ name ∈ a.reads, name ∈ available) ∧ ∀ i ∈ places, Clear batch joins a i := by
  simp only [fits_iff, Clear, List.mem_map, List.mem_filter, Bool.not_eq_true',
    exists_exists_and_eq_and, not_exists, not_and]
  constructor
  · intro h
    obtain ⟨hreads, hread, htarget, hover⟩ := h
    refine ⟨hreads, fun i hi => ⟨fun hj => ⟨fun hr => ?_, htarget i ⟨hi, hj⟩⟩, fun hj => ?_⟩⟩
    · exact hread _ hr i ⟨hi, hj⟩ rfl
    · exact hover (batch i) ⟨i, ⟨hi, hj⟩, rfl⟩
  · intro h
    obtain ⟨hreads, hclear⟩ := h
    refine ⟨hreads, fun name hr i hi he => ?_, fun i hi => ((hclear i hi.1).1 hi.2).2, ?_⟩
    · exact ((hclear i hi.1).1 hi.2).1 (he ▸ hr)
    · rintro b ⟨i, hi, rfl⟩
      exact (hclear i hi.1).2 hi.2

/-- One more place is decided by what stands before it, and changes nothing there. -/
theorem Decides.concat {joins : Fin n → Bool} {last : Fin n}
    (h : Decides batch available places joins) (hbefore : ∀ i ∈ places, i < last) :
    Decides batch available (places ++ [last])
      (Function.update joins last (fits available ((places.filter joins).map batch)
        ((places.filter fun i => !joins i).map batch) (batch last))) := by
  set fit := fits available ((places.filter joins).map batch)
    ((places.filter fun i => !joins i).map batch) (batch last) with hfit
  set joins' := Function.update joins last fit
  -- the new place is after all others, so nothing that was decided changes
  have hsame : ∀ i ∈ places, joins' i = joins i :=
    fun i hi => Function.update_of_ne (hbefore i hi).ne _ _
  have hself : joins' last = fit := Function.update_self _ _ _
  have hclear : ∀ i ∈ places, ∀ a, Clear batch joins' a i ↔ Clear batch joins a i := by
    intro i hi a
    rw [Clear, Clear, hsame i hi]
  constructor
  · have hin : places.filter joins' = places.filter joins := List.filter_congr hsame
    have hout : (places.filter fun i => !joins' i) = places.filter fun i => !joins i :=
      List.filter_congr fun i hi => by rw [hsame i hi]
    rw [List.map_append, pass_append, h.pass_eq, List.filter_append, List.filter_append, hin, hout,
      List.map_singleton, pass, pass, pass, ← hfit]
    cases hf : fit with
    | true => simp [hself, hf]
    | false => simp [hself, hf]
  · intro j hj
    rcases List.mem_append.mp hj with hold | hnew
    · rw [hsame j hold, h.joins_iff j hold]
      refine and_congr_right fun _ => ⟨fun hearlier i hi hij => ?_, fun hearlier i hi hij => ?_⟩
      · rcases List.mem_append.mp hi with hi | hi
        · exact (hclear i hi _).mpr (hearlier i hi hij)
        · obtain rfl := List.mem_singleton.mp hi
          exact absurd (hbefore j hold) hij.asymm
      · exact (hclear i hi _).mp (hearlier i (List.mem_append_left _ hi) hij)
    · -- for the new place, every other place is an earlier one
      obtain rfl := List.mem_singleton.mp hnew
      rw [hself, hfit, fits_places_iff]
      refine and_congr_right fun _ => ⟨fun hearlier i hi hij => ?_, fun hearlier i hi => ?_⟩
      · rcases List.mem_append.mp hi with hi | hi
        · exact (hclear i hi _).mpr (hearlier i hi)
        · obtain rfl := List.mem_singleton.mp hi
          exact absurd hij (lt_irrefl _)
      · exact (hclear i hi _).mp (hearlier i (List.mem_append_left _ hi) (hbefore i hi))

/-- Every pass over places in order makes such a decision. -/
theorem exists_decides (batch : Fin n → Assignment) (available : List Text)
    (h : places.Pairwise (· < ·)) : ∃ joins, Decides batch available places joins := by
  induction places using List.reverseRecOn with
  | nil => exact ⟨fun _ => false, rfl, by simp⟩
  | append_singleton places last ih =>
    obtain ⟨hplaces, -, hlast⟩ := List.pairwise_append.mp h
    obtain ⟨joins, hjoins⟩ := ih hplaces
    exact ⟨_, hjoins.concat fun i hi => hlast i hi last (List.mem_singleton_self _)⟩

variable {joins : Fin n → Bool}

/-- An assignment that waits reads nothing that the pass places behind it. -/
theorem Decides.readsEarlier (h : Decides batch available places joins)
    (hleft : ReadsEarlier batch
      (available ++ ((places.filter joins).map batch).map Assignment.target)
      (places.filter fun i => !joins i)) : ReadsEarlier batch available places := by
  intro j hj name hname
  cases hjoin : joins j with
  | true => exact Or.inl (((h.joins_iff j hj).mp hjoin).1 name hname)
  | false =>
    rcases hleft j (List.mem_filter.mpr ⟨hj, by simp [hjoin]⟩) name hname with
      hthere | ⟨i, hi, hij, ht⟩
    · rcases List.mem_append.mp hthere with hthere | hplaced
      · exact Or.inl hthere
      · rw [List.map_map, List.mem_map] at hplaced
        obtain ⟨i, hi, rfl⟩ := hplaced
        obtain ⟨hi, hjoini⟩ := List.mem_filter.mp hi
        rcases lt_trichotomy i j with hij | rfl | hji
        · exact Or.inr ⟨i, hi, hij, rfl⟩
        · exact absurd hjoini (by simp [hjoin])
        · -- a later writer of the name could not have overtaken
          have hover := (((h.joins_iff i hi).mp hjoini).2 j hj hji).2 hjoin
          exact absurd hname (mayOvertake_iff.mp hover).2.2
    · exact Or.inr ⟨i, (List.mem_filter.mp hi).1, hij, ht⟩

/-- **What waits is nowhere first**: an assignment that does not join has a positive number in every
staging. -/
theorem Decides.pos_of_waits (h : Decides batch available places joins)
    (hreads : ReadsEarlier batch available places) {stage : Fin n → Nat}
    (hstage : StagedOn batch places stage) :
    ∀ j ∈ places, joins j = false → 0 < stage j := by
  intro j
  induction j using WellFoundedLT.induction with
  | ind j ih =>
    intro hj hwaits
    by_contra hpos
    have hzero : stage j = 0 := by omega
    -- then nothing is in its way, and it would have joined
    have hjoin : joins j = true := by
      refine (h.joins_iff j hj).mpr ⟨fun name hname => ?_, fun i hi hij => ⟨fun _ => ?_, fun hi' => ?_⟩⟩
      · rcases hreads j hj name hname with hthere | ⟨i, hi, hij, rfl⟩
        · exact hthere
        · have := (hstage i hi j hj hij).after (Or.inl hname)
          omega
      · constructor
        · intro hread
          have := (hstage i hi j hj hij).after (Or.inl hread)
          omega
        · intro htarget
          have := (hstage i hi j hj hij).after (Or.inr htarget)
          omega
      · have hi0 : 0 < stage i := ih i hij hi hi'
        refine mayOvertake_iff.mpr ⟨fun htarget => ?_, fun hread => ?_, fun hread => ?_⟩
        · have := (hstage i hi j hj hij).after (Or.inr htarget.symm)
          omega
        · have := (hstage i hi j hj hij).after (Or.inl hread)
          omega
        · have := (hstage i hi j hj hij).notBefore hread
          omega
    rw [hjoin] at hwaits
    exact Bool.noConfusion hwaits

end Partition

/-! ## The stage of each place -/

/-- The stages hold the assignments of the given places, each in the stage of its group number and in
order of place. The numbers form a staging, and no staging has smaller ones. -/
structure Grouping (batch : Fin n → Assignment) (places : List (Fin n))
    (stages : List (List Assignment)) (group : Fin n → Nat) : Prop where
  stages_eq : stages = (List.range stages.length).map fun k =>
    (places.filter fun i => group i = k).map batch
  lt : ∀ i ∈ places, group i < stages.length
  occupied : ∀ k < stages.length, ∃ i ∈ places, group i = k
  staged : StagedOn batch places group
  earliest : ∀ stage, StagedOn batch places stage → ∀ i ∈ places, group i ≤ stage i

section Pass

variable {joins : Fin n → Bool} {rest : List (List Assignment)} {group : Fin n → Nat}

/-- The group numbers with one more pass in front: what joins it is first, all else is one later. -/
def laterGroup (joins : Fin n → Bool) (group : Fin n → Nat) (i : Fin n) : Nat :=
  if joins i then 0 else group i + 1

theorem laterGroup_of_joins {i : Fin n} (h : joins i = true) : laterGroup joins group i = 0 := if_pos h

theorem laterGroup_of_waits {i : Fin n} (h : joins i = false) :
    laterGroup joins group i = group i + 1 := by
  rw [laterGroup, h]
  rfl

theorem stages_laterGroup (h : rest = (List.range rest.length).map fun k =>
      ((places.filter fun i => !joins i).filter fun i => group i = k).map batch) :
    (places.filter joins).map batch :: rest =
      (List.range ((places.filter joins).map batch :: rest).length).map fun k =>
        (places.filter fun i => laterGroup joins group i = k).map batch := by
  -- the first group are the places that join, and the others move on by one
  have hfirst : places.filter joins = places.filter fun i => laterGroup joins group i = 0 := by
    refine List.filter_congr fun i _ => ?_
    cases hi : joins i with
    | true => simp [laterGroup_of_joins hi]
    | false => simp [laterGroup_of_waits hi]
  have hrest : ∀ k, ((places.filter fun i => !joins i).filter fun i => group i = k) =
      places.filter fun i => laterGroup joins group i = k.succ := by
    intro k
    rw [List.filter_filter]
    refine List.filter_congr fun i _ => ?_
    cases hi : joins i with
    | true => simp [laterGroup_of_joins hi]
    | false => simp [laterGroup_of_waits hi]
  rw [List.length_cons, List.range_succ_eq_map, List.map_cons, List.map_map, ← hfirst]
  refine congrArg _ (h.trans (List.map_congr_left fun k _ => ?_))
  rw [hrest k]
  rfl

/-- A place that joins a pass and one that waits, or two that join, are in order whatever comes
after. -/
theorem Partition.Decides.staged_laterGroup (h : Decides batch available places joins)
    (hrest : StagedOn batch (places.filter fun i => !joins i) group) :
    StagedOn batch places (laterGroup joins group) := by
  intro i hi j hj hij
  -- in the first group nothing was overtaken; later on the groups of the rest decide
  cases hjoin : joins j with
  | true =>
    have hclear := ((h.joins_iff j hj).mp hjoin).2 i hi hij
    cases hi' : joins i with
    | true =>
      obtain ⟨hread, htarget⟩ := hclear.1 hi'
      rw [laterGroup_of_joins hjoin, laterGroup_of_joins hi']
      exact ⟨fun hc => (hc.elim hread htarget).elim, fun _ => Nat.le_refl 0⟩
    | false => exact InOrder.of_mayOvertake (hclear.2 hi') _ _
  | false =>
    cases hi' : joins i with
    | true =>
      rw [laterGroup_of_waits hjoin, laterGroup_of_joins hi']
      exact ⟨fun _ => Nat.succ_pos _, fun _ => Nat.zero_le _⟩
    | false =>
      have hboth := hrest i (List.mem_filter.mpr ⟨hi, by simp [hi']⟩) j
        (List.mem_filter.mpr ⟨hj, by simp [hjoin]⟩) hij
      rw [laterGroup_of_waits hjoin, laterGroup_of_waits hi']
      exact ⟨fun hc => Nat.succ_lt_succ (hboth.after hc),
        fun hc => Nat.succ_le_succ (hboth.notBefore hc)⟩

/-- For what waits, every staging of the whole still is one when all its numbers are one less. -/
theorem Partition.Decides.staged_pred (h : Decides batch available places joins)
    (hreads : ReadsEarlier batch available places) {stage : Fin n → Nat}
    (hstage : StagedOn batch places stage) :
    StagedOn batch (places.filter fun i => !joins i) fun i => stage i - 1 := by
  intro i hi j hj hij
  obtain ⟨hi, hiw⟩ := List.mem_filter.mp hi
  obtain ⟨hj, hjw⟩ := List.mem_filter.mp hj
  -- a place that waits is never in stage zero, so one less is still one apart
  have hipos := h.pos_of_waits hreads hstage i hi (by simpa using hiw)
  have hboth := hstage i hi j hj hij
  show InOrder (batch i) (batch j) (stage i - 1) (stage j - 1)
  constructor
  · intro hc
    have := hboth.after hc
    omega
  · intro hc
    have := hboth.notBefore hc
    omega

/-- What one pass does to the groups of what it leaves. -/
theorem Partition.Decides.grouping (h : Decides batch available places joins)
    (hreads : ReadsEarlier batch available places) (hplaced : (places.filter joins).map batch ≠ [])
    (hrest : Grouping batch (places.filter fun i => !joins i) rest group) :
    Grouping batch places ((places.filter joins).map batch :: rest) (laterGroup joins group) := by
  have hwaits : ∀ i ∈ places, joins i = false → i ∈ places.filter fun i => !joins i :=
    fun i hi hw => List.mem_filter.mpr ⟨hi, by simp [hw]⟩
  refine ⟨stages_laterGroup hrest.stages_eq, ?_, ?_, h.staged_laterGroup hrest.staged, ?_⟩
  · intro i hi
    rw [List.length_cons]
    cases hj : joins i with
    | true =>
      rw [laterGroup_of_joins hj]
      exact Nat.succ_pos _
    | false =>
      rw [laterGroup_of_waits hj]
      exact Nat.succ_lt_succ (hrest.lt i (hwaits i hi hj))
  · intro k hk
    cases k with
    | zero =>
      obtain ⟨i, hi⟩ := List.exists_mem_of_ne_nil _ (List.map_eq_nil_iff.not.mp hplaced)
      obtain ⟨hi, hj⟩ := List.mem_filter.mp hi
      exact ⟨i, hi, laterGroup_of_joins hj⟩
    | succ k =>
      obtain ⟨i, hi, hg⟩ := hrest.occupied k (Nat.lt_of_succ_lt_succ hk)
      obtain ⟨hi, hj⟩ := List.mem_filter.mp hi
      exact ⟨i, hi, by rw [laterGroup_of_waits (by simpa using hj), hg]⟩
  · intro stage hstage i hi
    cases hj : joins i with
    | true =>
      rw [laterGroup_of_joins hj]
      exact Nat.zero_le _
    | false =>
      -- any staging of all places is, one earlier, a staging of those that wait
      have hpos := h.pos_of_waits hreads hstage i hi hj
      have hle := hrest.earliest _ (h.staged_pred hreads hstage) i (hwaits i hi hj)
      rw [laterGroup_of_waits hj]
      omega

end Pass

/-- What a partition succeeds on reads nothing that is written later only. -/
theorem readsEarlier_of_partition {stages : List (List Assignment)}
    (hplaces : places.Pairwise (· < ·)) (h : partition available (places.map batch) = .ok stages) :
    ReadsEarlier batch available places := by
  induction stages generalizing available places with
  | nil =>
    rcases partition_cases h with ⟨he, -⟩ | ⟨_, _, _, _, _, _, he⟩
    · intro j hj
      rw [List.map_eq_nil_iff.mp he] at hj
      exact absurd hj (by simp)
    · exact absurd he (by simp)
  | cons stage rest ih =>
    rcases partition_cases h with ⟨-, he⟩ | ⟨placed, left, rest', hpass, -, hrest, he⟩
    · exact absurd he (by simp)
    · obtain ⟨rfl, rfl⟩ := List.cons.inj he
      -- the places of the pass stand in for its assignments
      obtain ⟨joins, hjoins⟩ := Partition.exists_decides batch available hplaces
      obtain ⟨rfl, rfl⟩ := Prod.mk.inj (hpass.symm.trans hjoins.pass_eq)
      exact hjoins.readsEarlier (ih (hplaces.filter _) hrest)

/-- **The stages of a partition are the earliest.** -/
theorem partition_grouping {stages : List (List Assignment)} (hplaces : places.Pairwise (· < ·))
    (h : partition available (places.map batch) = .ok stages) :
    ∃ group, Grouping batch places stages group := by
  induction stages generalizing available places with
  | nil =>
    rcases partition_cases h with ⟨he, -⟩ | ⟨_, _, _, _, _, _, he⟩
    · rw [List.map_eq_nil_iff.mp he]
      exact ⟨fun _ => 0, rfl, by simp, by simp, by simp [StagedOn], by simp⟩
    · exact absurd he (by simp)
  | cons stage rest ih =>
    -- that everything is read after it is written needs the whole batch, not the rest alone
    have hreads := readsEarlier_of_partition hplaces h
    rcases partition_cases h with ⟨-, he⟩ | ⟨placed, left, rest', hpass, hplaced, hrest, he⟩
    · exact absurd he (by simp)
    · obtain ⟨rfl, rfl⟩ := List.cons.inj he
      obtain ⟨joins, hjoins⟩ := Partition.exists_decides batch available hplaces
      obtain ⟨rfl, rfl⟩ := Prod.mk.inj (hpass.symm.trans hjoins.pass_eq)
      obtain ⟨group, hgroup⟩ := ih (hplaces.filter _) hrest
      exact ⟨_, hjoins.grouping hreads hplaced hgroup⟩

end Places

/-! ## The number of stages -/

/-- Stage numbers for the assignments of a batch that keep its meaning. -/
def Staging (as : List Assignment) (stage : Fin as.length → Nat) : Prop :=
  ∀ i j, i < j → InOrder (as.get i) (as.get j) (stage i) (stage j)

/-- The assignments of a batch that have a stage number, in the order of the batch. -/
def stageOf (as : List Assignment) (stage : Fin as.length → Nat) (k : Nat) : List Assignment :=
  ((List.finRange as.length).filter fun i => stage i = k).map as.get

/-- The number of stages that a staging uses. -/
def stageCount {n : Nat} (stage : Fin n → Nat) : Nat := (Finset.univ.image stage).card

/-- How many of the stages in use come before that of a place. -/
def stageRank {n : Nat} (stage : Fin n → Nat) (i : Fin n) : Nat :=
  ((Finset.univ.image stage).filter (· < stage i)).card

section Rank

variable {n : Nat} {stage : Fin n → Nat} {i j : Fin n}

theorem mem_image_stage (stage : Fin n → Nat) (i : Fin n) : stage i ∈ Finset.univ.image stage :=
  Finset.mem_image_of_mem stage (Finset.mem_univ i)

theorem stageRank_lt_stageCount (stage : Fin n → Nat) (i : Fin n) :
    stageRank stage i < stageCount stage := by
  refine Finset.card_lt_card (Finset.filter_ssubset.mpr ⟨stage i, mem_image_stage stage i, ?_⟩)
  exact lt_irrefl _

theorem stageRank_mono (h : stage i ≤ stage j) : stageRank stage i ≤ stageRank stage j := by
  refine Finset.card_le_card (Finset.monotone_filter_right _ fun k _ hk => ?_)
  exact lt_of_lt_of_le hk h

theorem stageRank_strictMono (h : stage i < stage j) : stageRank stage i < stageRank stage j := by
  refine Finset.card_lt_card (Finset.ssubset_iff_of_subset ?_ |>.mpr ⟨stage i, ?_, ?_⟩)
  · exact Finset.monotone_filter_right _ fun k _ hk => lt_trans hk h
  · exact Finset.mem_filter.mpr ⟨mem_image_stage stage i, h⟩
  · exact fun hm => lt_irrefl _ (Finset.mem_filter.mp hm).2

end Rank

/-- Leaving no stage number unused keeps a staging. -/
theorem Staging.rank {as : List Assignment} {stage : Fin as.length → Nat} (h : Staging as stage) :
    Staging as (stageRank stage) := fun i j hij =>
  ⟨fun hc => stageRank_strictMono ((h i j hij).after hc),
    fun hc => stageRank_mono ((h i j hij).notBefore hc)⟩

/--
**Partitioning puts each assignment in the earliest stage, and so uses the fewest.**

`group` is the index of the stage that holds the assignment of a place. It is a staging itself, it uses
each of the stages, and for every staging the index of an assignment is at most its stage number. The
number of stages is the smallest number of stages that any staging uses.
-/
theorem partition_fewest_stages {available : List Text} {as : List Assignment}
    {stages : List (List Assignment)} (h : partition available as = .ok stages) :
    ∃ group : Fin as.length → Nat,
      stages = (List.range stages.length).map (stageOf as group) ∧
        (∀ i, group i < stages.length) ∧ Staging as group ∧ stageCount group = stages.length ∧
        ∀ stage, Staging as stage →
          (∀ i, group i ≤ stage i) ∧ stages.length ≤ stageCount stage := by
  have hplaces : partition available ((List.finRange as.length).map as.get) = .ok stages := by
    rwa [List.map_get_finRange]
  obtain ⟨group, hg⟩ := partition_grouping (List.pairwise_lt_finRange _) hplaces
  have hearliest : ∀ stage, Staging as stage → ∀ i, group i ≤ stage i := fun stage hstage i =>
    hg.earliest stage (fun i _ j _ hij => hstage i j hij) i (List.mem_finRange i)
  have hlt : ∀ i, group i < stages.length := fun i => hg.lt i (List.mem_finRange i)
  refine ⟨group, hg.stages_eq, hlt, ?_, ?_, fun stage hstage => ⟨hearliest stage hstage, ?_⟩⟩
  · exact fun i j hij => hg.staged i (List.mem_finRange i) j (List.mem_finRange j) hij
  · have himage : Finset.univ.image group = Finset.range stages.length := by
      ext k
      simp only [Finset.mem_image, Finset.mem_univ, true_and, Finset.mem_range]
      constructor
      · rintro ⟨i, rfl⟩
        exact hlt i
      · intro hk
        obtain ⟨i, -, hi⟩ := hg.occupied k hk
        exact ⟨i, hi⟩
    rw [stageCount, himage, Finset.card_range]
  · -- the last stage holds an assignment, whose rank is no smaller than its index
    rcases Nat.eq_zero_or_pos stages.length with hzero | hpos
    · omega
    · obtain ⟨i, -, hi⟩ := hg.occupied (stages.length - 1) (by omega)
      have hle := hearliest _ hstage.rank i
      have hrank := stageRank_lt_stageCount stage i
      omega

/-- The three stages of `scratchBatch` against a stage for each of its five assignments. -/
theorem partition_fewest_stages_scratch :
    partition [[97], [98]] scratchBatch = .ok scratchStages ∧
      Staging scratchBatch (fun i => i.val) ∧
      ∃ group : Fin scratchBatch.length → Nat,
        scratchStages = (List.range 3).map (stageOf scratchBatch group) ∧ Staging scratchBatch group ∧
          (∀ i, group i ≤ i.val) ∧ 3 ≤ stageCount fun i : Fin scratchBatch.length => i.val := by
  have hstages : partition [[97], [98]] scratchBatch = .ok scratchStages := by cbv
  have hone : Staging scratchBatch fun i => i.val := fun i j hij => ⟨fun _ => hij, fun _ => hij.le⟩
  obtain ⟨group, heq, -, hgroup, -, hfewest⟩ := partition_fewest_stages hstages
  obtain ⟨hearliest, hcount⟩ := hfewest _ hone
  exact ⟨hstages, hone, group, heq, hgroup, hearliest, hcount⟩

end SqlPipeline
