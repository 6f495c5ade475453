import SqlPipeline.Dialect

/-!
# Transforms

A transform is work that no statement can express. It is given the names of two
tables, reads the first and makes the second by requests to an engine, one after
the other: a statement to execute, or a query for a single value whose answer may
decide what comes next. `Script` is that dialogue, and `Script.play` holds it with
an engine that answers from a list.
-/

namespace SqlPipeline

/-- What a transform asks of an engine, one request at a time. -/
inductive Script where
  | done
  | fail (error : Error)
  | execute (statement : Text) (next : Script)
  /-- A query for the first column of the first row, which may be absent. -/
  | query (statement : Text) (next : Option Text → Script)

/-- What an engine saw of a script. -/
structure Transcript where
  queried : List Text
  executed : List Text
  error : Option Error
  deriving Repr

/-- Holds the dialogue with an engine that gives the answers in order and none when they run out; also
gives back the answers that were not used. -/
def Script.play : Script → List (Option Text) → Transcript × List (Option Text)
  | done, answers => (⟨[], [], none⟩, answers)
  | fail error, answers => (⟨[], [], some error⟩, answers)
  | execute statement next, answers =>
    let (t, rest) := next.play answers
    (⟨t.queried, statement :: t.executed, t.error⟩, rest)
  | query statement next, answers =>
    let (t, rest) := (next (answers.head?.join)).play answers.tail
    (⟨statement :: t.queried, t.executed, t.error⟩, rest)

/-- Work that is delegated to the caller. -/
structure Transform where
  /-- Two transforms are the same one exactly if their tags agree. -/
  tag : Text
  name : Text
  /-- The requests made for an incoming and an outgoing table. -/
  script : Dialect → (incoming outgoing : Text) → Script

end SqlPipeline
