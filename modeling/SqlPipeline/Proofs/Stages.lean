import Mathlib
import SqlPipeline.Proofs.Columns

/-!
# Stages keep the meaning of a batch

A batch of assignments means what it means when they run one after the other. A
stage evaluates all its right-hand sides before it writes anything. This file shows
that running the stages of `partition` gives what running the batch in order gives.

The argument needs two facts about a state and no more: writes to different names
commute, and a value does not change when a name is written that it does not read.
`Store` is any state with these two facts, so the result holds of an environment,
and also of a list of rows, where a value may look at the whole column.

One pass keeps the following. What the pass has placed, run as one stage, and then
what it has left, run in order, amount to the assignments it has seen, run in order.
An assignment that joins the stage overtakes those left behind, and `mayOvertake`
is exactly the condition under which the two orders agree.
-/

namespace SqlPipeline

universe u v

/-! ## What a pass does to the lists -/

namespace Partition

theorem fits_iff {available : List Text} {placed left : List Assignment} {a : Assignment} :
    fits available placed left a = true ↔
      (∀ name ∈ a.reads, name ∈ available) ∧
        (∀ name ∈ a.reads, name ∉ placed.map Assignment.target) ∧
        a.target ∉ placed.map Assignment.target ∧ ∀ b ∈ left, mayOvertake a b = true := by
  simp only [fits, Bool.and_eq_true, List.all_eq_true, Bool.not_eq_true', List.any_eq_false,
    List.contains_eq_mem, decide_eq_true_eq, decide_eq_false_iff_not, and_assoc]

theorem mayOvertake_iff {later earlier : Assignment} :
    mayOvertake later earlier = true ↔
      later.target ≠ earlier.target ∧ earlier.target ∉ later.reads ∧
        later.target ∉ earlier.reads := by
  simp only [mayOvertake, Bool.and_eq_true, bne_iff_ne, Bool.not_eq_true', List.contains_eq_mem,
    decide_eq_false_iff_not, and_assoc]

/-- A pass only adds to the stage. -/
theorem placed_prefix_pass (available : List Text) (as placed left : List Assignment) :
    placed <+: (pass available placed left as).1 := by
  induction as generalizing placed left with
  | nil => exact List.prefix_rfl
  | cons a rest ih =>
    unfold pass
    split
    · exact (List.prefix_append placed [a]).trans (ih (placed ++ [a]) left)
    · exact ih placed (left ++ [a])

/-- A pass gives each assignment to one of its two lists. -/
theorem pass_perm (available : List Text) (as placed left : List Assignment) :
    ((pass available placed left as).1 ++ (pass available placed left as).2).Perm
      (placed ++ left ++ as) := by
  induction as generalizing placed left with
  | nil => simp [pass]
  | cons a rest ih =>
    unfold pass
    split
    · refine (ih (placed ++ [a]) left).trans ?_
      simp only [List.append_assoc, List.singleton_append]
      exact List.Perm.append_left placed List.perm_middle.symm
    · refine (ih placed (left ++ [a])).trans ?_
      simp only [List.append_assoc, List.singleton_append]
      exact List.Perm.refl _

/-- The members of a stage write different columns. -/
theorem nodup_targets_pass (available : List Text) (as placed left : List Assignment)
    (h : (placed.map Assignment.target).Nodup) :
    ((pass available placed left as).1.map Assignment.target).Nodup := by
  induction as generalizing placed left with
  | nil => exact h
  | cons a rest ih =>
    unfold pass
    split
    · rename_i hf
      refine ih (placed ++ [a]) left ?_
      rw [List.map_append, List.nodup_append]
      -- an assignment fits only if its target is not placed yet
      refine ⟨h, by simp, ?_⟩
      intro x hx y hy
      rw [List.map_singleton, List.mem_singleton] at hy
      subst hy
      exact fun he => (fits_iff.mp hf).2.2.1 (he ▸ hx)
    · exact ih placed (left ++ [a]) h

end Partition

/-- What a successful `partition` is: nothing for an empty batch, and else a stage that is not empty
and then the stages of what the first pass left. -/
theorem partition_cases {available : List Text} {as : List Assignment}
    {stages : List (List Assignment)} (h : partition available as = .ok stages) :
    (as = [] ∧ stages = []) ∨
      ∃ placed left rest, Partition.pass available [] [] as = (placed, left) ∧ placed ≠ [] ∧
        partition (available ++ placed.map Assignment.target) left = .ok rest ∧
        stages = placed :: rest := by
  unfold partition at h
  split at h
  · rename_i he
    exact Or.inl ⟨List.isEmpty_iff.mp he, (Except.ok.inj h).symm⟩
  · simp only at h
    split at h
    · exact absurd h (by simp)
    · rename_i hne
      cases hp : partition (available ++
          (Partition.pass available [] [] as).1.map Assignment.target)
          (Partition.pass available [] [] as).2 with
      | error e =>
        rw [hp] at h
        exact absurd h (by simp [Except.map])
      | ok rest =>
        rw [hp] at h
        exact Or.inr ⟨_, _, rest, rfl, hne, hp, (Except.ok.inj h).symm⟩

/-- The stages hold each assignment of the batch once. -/
theorem partition_perm {available : List Text} {as : List Assignment}
    {stages : List (List Assignment)} (h : partition available as = .ok stages) :
    stages.flatten.Perm as := by
  induction stages generalizing available as with
  | nil =>
    rcases partition_cases h with ⟨rfl, -⟩ | ⟨_, _, _, _, _, _, he⟩
    · exact List.Perm.refl _
    · exact absurd he (by simp)
  | cons stage rest ih =>
    rcases partition_cases h with ⟨-, he⟩ | ⟨placed, left, rest', hpass, -, hrest, he⟩
    · exact absurd he (by simp)
    · obtain ⟨rfl, rfl⟩ := List.cons.inj he
      have hperm := Partition.pass_perm available as [] []
      rw [hpass] at hperm
      exact ((ih hrest).append_left stage).trans hperm

/-- Within a stage no column is written twice. -/
theorem partition_nodup_targets {available : List Text} {as : List Assignment}
    {stages : List (List Assignment)} (h : partition available as = .ok stages) :
    ∀ stage ∈ stages, (stage.map Assignment.target).Nodup := by
  induction stages generalizing available as with
  | nil => exact fun stage hs => absurd hs (by simp)
  | cons stage rest ih =>
    rcases partition_cases h with ⟨-, he⟩ | ⟨placed, left, rest', hpass, -, hrest, he⟩
    · exact absurd he (by simp)
    · obtain ⟨rfl, rfl⟩ := List.cons.inj he
      intro s hs
      rcases List.mem_cons.mp hs with rfl | hs
      · have hnd := Partition.nodup_targets_pass available as [] [] (by simp)
        rwa [hpass] at hnd
      · exact ih hrest s hs

/-! ## A batch whose names are in scope has stages -/

/-- Each assignment reads visible columns or targets of earlier ones. -/
def Scoped : List Text → List Assignment → Prop
  | _, [] => True
  | visible, a :: rest => (∀ name ∈ a.reads, name ∈ visible) ∧ Scoped (a.target :: visible) rest

theorem Scoped.mono {visible visible' : List Text} {as : List Assignment} (h : Scoped visible as)
    (hs : ∀ name ∈ visible, name ∈ visible') : Scoped visible' as := by
  induction as generalizing visible visible' with
  | nil => trivial
  | cons a rest ih =>
    refine ⟨fun name hn => hs name (h.1 name hn), ih h.2 ?_⟩
    intro name hn
    rcases List.mem_cons.mp hn with rfl | hn
    · exact List.mem_cons_self
    · exact List.mem_cons_of_mem _ (hs name hn)

theorem scoped_append {visible : List Text} {as bs : List Assignment} :
    Scoped visible (as ++ bs) ↔
      Scoped visible as ∧ Scoped (visible ++ as.map Assignment.target) bs := by
  induction as generalizing visible with
  | nil => simp [Scoped]
  | cons a rest ih =>
    have hswap : Scoped (a.target :: visible ++ rest.map Assignment.target) bs ↔
        Scoped (visible ++ (a :: rest).map Assignment.target) bs := by
      constructor
      · exact fun h => h.mono (by simp; grind)
      · exact fun h => h.mono (by simp; grind)
    simp only [List.cons_append, Scoped]
    rw [ih, hswap, and_assoc]

/-- What a pass leaves is in scope once the stage has run. -/
theorem Partition.scoped_pass (available : List Text) (as placed left : List Assignment)
    (h : Scoped (available ++ placed.map Assignment.target) (left ++ as)) :
    Scoped (available ++ (pass available placed left as).1.map Assignment.target)
      (pass available placed left as).2 := by
  induction as generalizing placed left with
  | nil => simpa [pass] using h
  | cons a rest ih =>
    unfold pass
    split
    · refine ih (placed ++ [a]) left ?_
      rw [scoped_append] at h ⊢
      refine ⟨h.1.mono (by simp; grind), h.2.2.mono (by simp; grind)⟩
    · refine ih placed (left ++ [a]) ?_
      rwa [List.append_assoc, List.singleton_append]

/-- A batch whose names are in scope can be cut into stages: the first assignment that is left can
always be placed. -/
theorem partition_of_scoped {available : List Text} {as : List Assignment}
    (h : Scoped available as) : ∃ stages, partition available as = .ok stages := by
  induction hn : as.length using Nat.strongRecOn generalizing available as with
  | ind n ih =>
    subst hn
    cases as with
    | nil => exact ⟨[], by rw [partition]; rfl⟩
    | cons a rest =>
      -- the first assignment of a scoped list always fits, so a pass never places nothing
      have hfits : Partition.fits available [] [] a = true := by
        rw [Partition.fits_iff]
        exact ⟨h.1, by simp, by simp, by simp⟩
      have hplaced : (Partition.pass available [] [] (a :: rest)).1 ≠ [] := by
        have hpre := Partition.placed_prefix_pass available rest [a] []
        rw [Partition.pass, if_pos hfits, List.nil_append]
        intro he
        rw [he] at hpre
        exact absurd hpre (by simp)
      have hlen := Partition.length_pass available (a :: rest) [] []
      have hpos := List.length_pos_iff.mpr hplaced
      simp only [List.length_nil, Nat.zero_add] at hlen
      -- what is left reads what was available, or a target placed in this pass
      have hscoped := Partition.scoped_pass available (a :: rest) [] []
        (by simpa using h)
      obtain ⟨stages, hstages⟩ := ih _ (by omega) hscoped rfl
      refine ⟨(Partition.pass available [] [] (a :: rest)).1 :: stages, ?_⟩
      rw [partition, if_neg (by simp)]
      simp only [if_neg hplaced, hstages]
      rfl

/-! ## Running in order and running in stages -/

/-- A state that assignments run on. Values may also depend on pinned columns, which nobody assigns. -/
structure Store (S : Type u) (β : Type v) where
  value : Expr → S → β
  write : Text → β → S → S
  pinned : List Text
  /-- Writes to different names commute. -/
  write_comm : ∀ {x y : Text} (v w : β) (s : S), x ≠ y →
    write x v (write y w s) = write y w (write x v s)
  /-- A value does not change when a name is written that it does not read. -/
  value_write : ∀ {e : Expr} {x : Text} (v : β) (s : S), x ∉ e.columns → x ∉ pinned →
    value e (write x v s) = value e s

namespace Store

variable {S : Type u} {β : Type v} (m : Store S β)

/-- Runs one assignment. -/
def assign (s : S) (a : Assignment) : S := m.write a.target (m.value a.expr s) s

/-- Runs a stage: every value is taken from the state before the first write. -/
def stage (s : S) (as : List Assignment) : S :=
  as.foldl (fun later a => m.write a.target (m.value a.expr s) later) s

theorem value_stage {e : Expr} {as : List Assignment}
    (hr : ∀ name ∈ e.columns, name ∉ as.map Assignment.target)
    (hp : ∀ a ∈ as, a.target ∉ m.pinned) (s : S) : m.value e (m.stage s as) = m.value e s := by
  suffices hgen : ∀ later, m.value e
      (as.foldl (fun later a => m.write a.target (m.value a.expr s) later) later) =
        m.value e later from hgen s
  induction as with
  | nil => exact fun _ => rfl
  | cons a rest ih =>
    intro later
    have ht : a.target ∉ e.columns := fun hm => hr _ hm (by simp)
    rw [List.foldl_cons, ih (fun name hn hm => hr name hn (List.mem_cons_of_mem _ hm))
      (fun b hb => hp b (List.mem_cons_of_mem _ hb))]
    exact m.value_write _ later ht (hp a List.mem_cons_self)

/-- An assignment that joins a stage runs as if it came after the stage. -/
theorem stage_append {as : List Assignment} {a : Assignment}
    (hr : ∀ name ∈ a.reads, name ∉ as.map Assignment.target)
    (hp : ∀ b ∈ as, b.target ∉ m.pinned) (s : S) :
    m.stage s (as ++ [a]) = m.assign (m.stage s as) a := by
  rw [assign, m.value_stage hr hp, stage, List.foldl_append]
  rfl

/-- Two assignments of which one may overtake the other can change places. -/
theorem assign_comm {a b : Assignment} (h : Partition.mayOvertake a b = true)
    (ha : a.target ∉ m.pinned) (hb : b.target ∉ m.pinned) (s : S) :
    m.assign (m.assign s b) a = m.assign (m.assign s a) b := by
  obtain ⟨hne, hab, hba⟩ := Partition.mayOvertake_iff.mp h
  simp only [assign]
  rw [m.value_write _ s hab hb, m.value_write _ s hba ha]
  exact m.write_comm _ _ s hne

/-- An assignment that may overtake each of a list can run before all of them. -/
theorem foldl_assign_comm {left : List Assignment} {a : Assignment}
    (h : ∀ b ∈ left, Partition.mayOvertake a b = true) (ha : a.target ∉ m.pinned)
    (hp : ∀ b ∈ left, b.target ∉ m.pinned) (s : S) :
    m.assign (left.foldl m.assign s) a = left.foldl m.assign (m.assign s a) := by
  induction left generalizing s with
  | nil => rfl
  | cons b rest ih =>
    rw [List.foldl_cons, List.foldl_cons,
      ih (fun c hc => h c (List.mem_cons_of_mem _ hc))
        (fun c hc => hp c (List.mem_cons_of_mem _ hc)),
      m.assign_comm (h b List.mem_cons_self) ha (hp b List.mem_cons_self)]

/-- What one pass keeps: its stage and then what it left amount to what it has seen in order. -/
theorem foldl_assign_pass (available : List Text) (as placed left : List Assignment)
    (hp : ∀ b ∈ placed ++ left ++ as, b.target ∉ m.pinned) (s : S) :
    (Partition.pass available placed left as).2.foldl m.assign
        (m.stage s (Partition.pass available placed left as).1) =
      as.foldl m.assign (left.foldl m.assign (m.stage s placed)) := by
  induction as generalizing placed left with
  | nil => rfl
  | cons a rest ih =>
    unfold Partition.pass
    split
    · rename_i hf
      obtain ⟨-, hreads, -, hover⟩ := Partition.fits_iff.mp hf
      -- the newcomer runs right after the stage, and so before everything that was left
      rw [ih (placed ++ [a]) left (by simpa [or_assoc, or_left_comm] using hp),
        m.stage_append hreads (fun b hb => hp b (by simp [hb])),
        ← m.foldl_assign_comm hover (hp a (by simp)) (fun b hb => hp b (by simp [hb]))]
      rfl
    · rw [ih placed (left ++ [a]) (by simpa using hp), List.foldl_append]
      rfl

/-- **Stages keep the meaning of a batch**, in every state. -/
theorem foldl_stage_partition {available : List Text} {as : List Assignment}
    {stages : List (List Assignment)} (h : partition available as = .ok stages)
    (hp : ∀ a ∈ as, a.target ∉ m.pinned) (s : S) :
    stages.foldl m.stage s = as.foldl m.assign s := by
  induction stages generalizing available as s with
  | nil =>
    rcases partition_cases h with ⟨rfl, -⟩ | ⟨_, _, _, _, _, _, he⟩
    · rfl
    · exact absurd he (by simp)
  | cons first rest ih =>
    rcases partition_cases h with ⟨-, he⟩ | ⟨placed, left, rest', hpass, -, hrest, he⟩
    · exact absurd he (by simp)
    · obtain ⟨rfl, rfl⟩ := List.cons.inj he
      have hperm := Partition.pass_perm available as [] []
      have hone := m.foldl_assign_pass available as [] [] (by simpa using hp) s
      rw [hpass] at hperm hone
      have hleft : ∀ a ∈ left, a.target ∉ m.pinned := fun a ha =>
        hp a (hperm.subset (List.mem_append_right _ ha))
      rw [List.foldl_cons, ih hrest hleft, hone]
      rfl

end Store

/-! ## Environments -/

section Environment

variable {α : Type u}

/-- Writing different names one after the other writes them all at once. -/
theorem foldl_update_eq {as : List Assignment} (h : (as.map Assignment.target).Nodup)
    (f : Assignment → α) (env : Text → α) (name : Text) :
    as.foldl (fun later a => Function.update later a.target (f a)) env name =
      match as.find? fun a => a.target == name with
      | some a => f a
      | none => env name := by
  induction as generalizing env with
  | nil => rfl
  | cons a rest ih =>
    rw [List.map_cons, List.nodup_cons] at h
    rw [List.foldl_cons, ih h.2]
    -- the targets differ, so no later update overwrites the first one found
    by_cases ha : a.target = name
    · subst ha
      rw [find?_key_eq_none h.1, List.find?_cons_of_pos (by simp)]
      exact Function.update_self _ _ _
    · rw [List.find?_cons_of_neg (by simpa using ha), Function.update_of_ne (Ne.symm ha)]

/-- Runs assignments one by one. -/
def runInOrder (eval : Expr → (Text → α) → α) : List Assignment → (Text → α) → Text → α
  | [], env => env
  | a :: rest, env => runInOrder eval rest (Function.update env a.target (eval a.expr env))

/-- Runs a stage: all right-hand sides are evaluated in the same environment, and then all targets are
written at once. -/
def runStage (eval : Expr → (Text → α) → α) (stage : List Assignment) (env : Text → α) : Text → α :=
  fun name =>
    match stage.find? fun a => a.target == name with
    | some a => eval a.expr env
    | none => env name

/-- Runs one stage after the other. -/
def runStages (eval : Expr → (Text → α) → α) : List (List Assignment) → (Text → α) → Text → α
  | [], env => env
  | stage :: rest, env => runStages eval rest (runStage eval stage env)

/-- The evaluator looks at no column that the expression does not name. -/
def ReadsOnlyColumns (eval : Expr → (Text → α) → α) : Prop :=
  ∀ e env env', (∀ name ∈ e.columns, env name = env' name) → eval e env = eval e env'

/-- An environment with such an evaluator is a state that assignments run on. -/
def Store.ofEval {eval : Expr → (Text → α) → α} (h : ReadsOnlyColumns eval) : Store (Text → α) α where
  value := eval
  write x v env := Function.update env x v
  pinned := []
  write_comm v w env hne := Function.update_comm hne.symm w v env
  value_write v env hx _ := by
    refine h _ _ _ fun name hn => Function.update_of_ne ?_ v env
    exact fun he => hx (he ▸ hn)

theorem runInOrder_eq_foldl {eval : Expr → (Text → α) → α} (h : ReadsOnlyColumns eval)
    (as : List Assignment) (env : Text → α) :
    runInOrder eval as env = as.foldl (Store.ofEval h).assign env := by
  induction as generalizing env with
  | nil => rfl
  | cons a rest ih => exact ih _

theorem runStages_eq_foldl {eval : Expr → (Text → α) → α} (h : ReadsOnlyColumns eval)
    {stages : List (List Assignment)}
    (hnd : ∀ stage ∈ stages, (stage.map Assignment.target).Nodup) (env : Text → α) :
    runStages eval stages env = stages.foldl (Store.ofEval h).stage env := by
  induction stages generalizing env with
  | nil => rfl
  | cons stage rest ih =>
    have hstage : runStage eval stage env = (Store.ofEval h).stage env stage :=
      funext fun name =>
        (foldl_update_eq (hnd stage List.mem_cons_self) (fun a => eval a.expr env) env name).symm
    rw [runStages, hstage, List.foldl_cons]
    exact ih (fun s hs => hnd s (List.mem_cons_of_mem _ hs)) _

/-- **Staged evaluation equals sequential evaluation**: for every batch that has stages, every evaluator
that looks only at the columns an expression names, and every environment to start from. -/
theorem runStages_partition {available : List Text} {as : List Assignment}
    {stages : List (List Assignment)} (h : partition available as = .ok stages)
    {eval : Expr → (Text → α) → α} (heval : ReadsOnlyColumns eval) (env : Text → α) (name : Text) :
    runStages eval stages env name = runInOrder eval as env name := by
  rw [runStages_eq_foldl heval (partition_nodup_targets h), runInOrder_eq_foldl heval]
  exact congrFun ((Store.ofEval heval).foldl_stage_partition h (fun _ _ hm => by cases hm) env) name

end Environment

/-- A batch that uses one scratch column twice, and whose last assignment can go first:
`x := a, y := x, x := b, z := x, c := a`. -/
def scratchBatch : List Assignment :=
  [⟨[120], .var [97]⟩, ⟨[121], .var [120]⟩, ⟨[120], .var [98]⟩, ⟨[122], .var [120]⟩,
    ⟨[99], .var [97]⟩]

/-- The stages of `scratchBatch` over the columns `a` and `b`. -/
def scratchStages : List (List Assignment) :=
  [[⟨[120], .var [97]⟩, ⟨[99], .var [97]⟩], [⟨[121], .var [120]⟩, ⟨[120], .var [98]⟩],
    [⟨[122], .var [120]⟩]]

/-- Adds up the columns that an expression names. -/
def sumColumns (e : Expr) (env : Text → Nat) : Nat := (e.columns.map env).sum

theorem runStages_partition_scratch :
    partition [[97], [98]] scratchBatch = .ok scratchStages ∧ ReadsOnlyColumns sumColumns ∧
      ∀ env name, runStages sumColumns scratchStages env name =
        runInOrder sumColumns scratchBatch env name := by
  have hstages : partition [[97], [98]] scratchBatch = .ok scratchStages := by cbv
  have hreads : ReadsOnlyColumns sumColumns := by
    intro e env env' h
    rw [sumColumns, sumColumns, List.map_congr_left h]
  exact ⟨hstages, hreads, runStages_partition hstages hreads⟩

end SqlPipeline
