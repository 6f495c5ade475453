import SqlPipeline.Error

/-!
# Stages of assignments

A batch of assignments means what it means when they run one after the other. One
SELECT, though, computes all its columns from the same row, so a batch is cut into
stages that do keep that meaning. Each pass goes over what is left from left to
right and closes one stage. An assignment joins the stage when every column it
reads is there, no member of the stage writes what it reads or writes, and it may
overtake each assignment that this pass has left behind.

`partition` repeats the pass until nothing is left. A pass that places nothing
ends it with an error; every other pass leaves fewer assignments behind.
-/

namespace SqlPipeline

namespace Partition

/-- Whether the order of two assignments does not matter: neither writes what the other reads, and they
write different columns. -/
def mayOvertake (later earlier : Assignment) : Bool :=
  later.target != earlier.target && !later.reads.contains earlier.target &&
    !earlier.reads.contains later.target

/-- Whether an assignment fits into the stage that the pass has placed, past those it has left. -/
def fits (available : List Text) (placed left : List Assignment) (a : Assignment) : Bool :=
  let targets := placed.map Assignment.target
  a.reads.all (fun name => available.contains name) &&
    !a.reads.any (fun name => targets.contains name) &&
    !targets.contains a.target &&
    left.all (mayOvertake a)

/-- One pass over the assignments: those placed in the stage and those left, each in order. -/
def pass (available : List Text) (placed left : List Assignment) :
    List Assignment → List Assignment × List Assignment
  | [] => (placed, left)
  | a :: rest =>
    if fits available placed left a then pass available (placed ++ [a]) left rest
    else pass available placed (left ++ [a]) rest

/-- A pass loses nothing. -/
theorem length_pass (available : List Text) (as placed left : List Assignment) :
    (pass available placed left as).1.length + (pass available placed left as).2.length =
      placed.length + left.length + as.length := by
  induction as generalizing placed left with
  | nil => simp [pass]
  | cons a rest ih =>
    unfold pass
    split
    · rw [ih]; simp; omega
    · rw [ih]; simp; omega

end Partition

/-- The stages of a batch of assignments over the given columns. -/
def partition (available : List Text) (as : List Assignment) :
    Except Error (List (List Assignment)) :=
  if as.isEmpty then .ok []
  else
    let cut := Partition.pass available [] [] as
    if cut.1 = [] then .error (.circularAssignments (cut.2.map Assignment.target))
    else (partition (available ++ cut.1.map Assignment.target) cut.2).map (cut.1 :: ·)
termination_by as.length
decreasing_by
  have hlen := Partition.length_pass available as [] []
  have hpos : 0 < cut.1.length := List.length_pos_iff.mpr ‹¬cut.1 = []›
  simp only [List.length_nil, Nat.zero_add] at hlen
  simp only [cut] at hpos
  omega

end SqlPipeline
