import SqlPipeline.Proofs.Capabilities
import SqlPipeline.Proofs.Staging

/-!
# A summary is made whole or not at all

The transform of a quantile summary can be stopped at three moments: before it asks for
anything, by an answer that is no count, and when it has all counts but the dialect does
not let it make its table. A statement is executed only after the last of them, and there
is one statement. So whatever an engine answers, the summary is there with all its rows
and columns, or nothing was done to the database.

`Script.play` keeps what was queried apart from what was executed. `Script.requests` is
the same dialogue with its requests in one row, which shows that the statement comes
after the counts.
-/

namespace SqlPipeline

namespace Script

/-- One request to an engine. -/
inductive Request where
  | query (statement : Text)
  | execute (statement : Text)
  deriving Repr, DecidableEq

namespace Request

def queried? : Request → Option Text
  | query statement => some statement
  | execute _ => none

def executed? : Request → Option Text
  | query _ => none
  | execute statement => some statement

variable (statements : List Text)

theorem filterMap_queried : (statements.map query).filterMap queried? = statements := by
  rw [List.filterMap_map]
  exact List.filterMap_some

theorem filterMap_executed : (statements.map query).filterMap executed? = [] := by
  rw [List.filterMap_map]
  exact List.filterMap_eq_nil_iff.mpr fun _ _ => rfl

theorem filterMap_queried_concat (sql : Text) :
    (statements.map query ++ [execute sql]).filterMap queried? = statements := by
  rw [List.filterMap_append, filterMap_queried]
  exact List.append_nil statements

theorem filterMap_executed_concat (sql : Text) :
    (statements.map query ++ [execute sql]).filterMap executed? = [sql] := by
  rw [List.filterMap_append, filterMap_executed]
  rfl

end Request

/-- What a script asks for, in order, from an engine that gives the answers in order and none when they
run out, and how it ends. -/
def requests : Script → List (Option Text) → List Request × Option Error
  | done, _ => ([], none)
  | fail error, _ => ([], some error)
  | execute statement next, answers =>
    let (asked, error) := next.requests answers
    (.execute statement :: asked, error)
  | query statement next, answers =>
    let (asked, error) := (next (answers.head?.join)).requests answers.tail
    (.query statement :: asked, error)

/-- The transcript is the dialogue sorted by the kind of request. -/
theorem play_eq_requests (s : Script) (answers : List (Option Text)) :
    (s.play answers).1 =
      ⟨(s.requests answers).1.filterMap Request.queried?,
        (s.requests answers).1.filterMap Request.executed?, (s.requests answers).2⟩ := by
  induction s generalizing answers with
  | done => rfl
  | fail error => rfl
  | execute statement next ih =>
    rw [play, requests]
    simp only [ih answers, List.filterMap_cons, Request.queried?, Request.executed?]
  | query statement next ih =>
    rw [play, requests]
    simp only [ih _ answers.tail, List.filterMap_cons, Request.queried?, Request.executed?]

end Script

namespace Quantile

variable {d : Dialect} {spec : QuantileSpec} {incoming outgoing : Text}

/-! ## Answers -/

/-- The number of values that an answer says there are; no answer says that there are none. -/
inductive Counted : Option Text → Nat → Prop where
  | absent : Counted none 0
  | read {value : Text} {n : Nat} (h : Count.word value.untilNul = some n) : Counted (some value) n

/-- The answer is a text that is not read as a number. -/
def Unreadable (answer : Option Text) (value : Text) : Prop :=
  answer = some value ∧ Count.word value.untilNul = none

/-- The answers, in the order of the columns, say how many values each column has. -/
structure AllCounted (columns : List Text) (answers : List (Option Text)) (counts : List Nat) :
    Prop where
  length : counts.length = columns.length
  counted : ∀ (i n : Nat), counts[i]? = some n → Counted (answers[i]?).join n

theorem Counted.not_unreadable {answer : Option Text} {n : Nat} {value : Text} (h : Counted answer n) :
    ¬Unreadable answer value := by
  intro hu
  obtain ⟨rfl, hnone⟩ := hu
  cases h with
  | read hsome =>
    rw [hnone] at hsome
    cases hsome

/-- Where there is a count for every column no answer is to blame. -/
theorem AllCounted.not_unreadable {columns : List Text} {answers : List (Option Text)}
    {counts : List Nat} {i : Nat} {value : Text} (h : AllCounted columns answers counts)
    (hi : i < columns.length) : ¬Unreadable (answers[i]?).join value := by
  have hlt : i < counts.length := h.length ▸ hi
  exact (h.counted i counts[i] (List.getElem?_eq_getElem hlt)).not_unreadable

/-- A count is read from an answer, or the answer is to blame. -/
theorem readCount_cases (column : Text) (answer : Option Text) :
    (∃ n, Counted answer n ∧ readCount column answer = .ok n) ∨
      ∃ value, Unreadable answer value ∧
        readCount column answer = .error (.unexpectedCount value column) := by
  cases answer with
  | none => exact Or.inl ⟨0, .absent, rfl⟩
  | some value =>
    cases hword : Count.word value.untilNul with
    | some n =>
      refine Or.inl ⟨n, .read hword, ?_⟩
      simp only [readCount, hword]
    | none =>
      refine Or.inr ⟨value, ⟨rfl, hword⟩, ?_⟩
      simp only [readCount, hword]

/-! ## The statement -/

/-- The items of the row of a probability: the probability, and a value for each column. The item of a
column is NULL exactly if it has no values; else it picks the value at the place of the probability. -/
structure RowItems (d : Dialect) (spec : QuantileSpec) (incoming : Text) (counts : List Nat)
    (p : Binary64) (items : List Text) : Prop where
  length : items.length = 1 + spec.columns.length
  probability : items[0]? = some (d.writeLiteral (.float p) ++ " AS " ++ d.quote spec.probsName)
  value : ∀ (i : Nat) (column : Text) (count : Nat), spec.columns[i]? = some column →
    counts[i]? = some count → ∃ item, items[i + 1]? = some item ∧
      (item = "NULL AS " ++ d.quote column ↔ count = 0) ∧
      (count ≠ 0 → item = "(SELECT " ++ d.quote column ++ " FROM (" ++ indexSql d incoming column ++
        ") relq_ranked WHERE " ++ d.quote indexColumn ++ " = " ++ Text.ofNat (position count p) ++
        ") AS " ++ d.quote column)

/-- The statement makes the outgoing table out of one SELECT for each probability, in order. -/
def MakesTable (d : Dialect) (spec : QuantileSpec) (incoming outgoing : Text) (counts : List Nat)
    (sql : Text) : Prop :=
  ∃ rows : List (List Text), List.Forall₂ (RowItems d spec incoming counts) spec.probs rows ∧
    sql = (⟨outgoing, spec.temporary && d.temporaryTables⟩ : Creation).statement d
      (Text.join "\nUNION ALL\n" (rows.map fun items => "SELECT " ++ Text.join ", " items))

theorem valueItem_eq_null_iff (d : Dialect) (incoming : Text) (p : Binary64) (column : Text)
    (count : Nat) :
    valueItem d incoming p column count = "NULL AS " ++ d.quote column ↔ count = 0 := by
  constructor
  · intro h
    by_contra hne
    rw [valueItem, if_neg hne] at h
    -- the one starts with a parenthesis and the other with an N
    have hheads : (some 40 : Option UInt8) = some 78 := congrArg List.head? h
    exact absurd hheads (by decide)
  · intro h
    rw [valueItem, if_pos h]

/-- A probability that is a number has a row. -/
theorem rowSql_ok (d : Dialect) (incoming : Text) {counts : List Nat} {p : Binary64}
    (hp : p.isFinite = true) (hlength : counts.length = spec.columns.length) :
    ∃ items, RowItems d spec incoming counts p items ∧
      rowSql d spec incoming counts p = .ok ("SELECT " ++ Text.join ", " items) := by
  have hliteral : d.literal (.float p) = .ok (d.writeLiteral (.float p)) := by
    rw [Dialect.literal, if_pos hp]
  refine ⟨(d.writeLiteral (.float p) ++ " AS " ++ d.quote spec.probsName) ::
    (spec.columns.zip counts).map fun entry => valueItem d incoming p entry.1 entry.2, ?_, ?_⟩
  · constructor
    · rw [List.length_cons, List.length_map, List.length_zip, hlength, Nat.min_self, Nat.add_comm]
    · rfl
    · intro i column count hcolumn hcount
      have hzip : (spec.columns.zip counts)[i]? = some (column, count) :=
        List.getElem?_zip_eq_some.mpr ⟨hcolumn, hcount⟩
      refine ⟨valueItem d incoming p column count, ?_, valueItem_eq_null_iff d incoming p column count,
        fun hne => ?_⟩
      · rw [List.getElem?_cons_succ, List.getElem?_map, hzip]
        rfl
      · rw [valueItem, if_neg hne]
  · rw [rowSql, hliteral]
    rfl

theorem rowsSql_ok (d : Dialect) (incoming : Text) {counts : List Nat} {probs : List Binary64}
    (hprobs : ∀ p ∈ probs, p.isFinite = true) (hlength : counts.length = spec.columns.length) :
    ∃ rows, List.Forall₂ (RowItems d spec incoming counts) probs rows ∧
      rowsSql d spec incoming counts probs =
        .ok (rows.map fun items => "SELECT " ++ Text.join ", " items) := by
  induction probs with
  | nil => exact ⟨[], .nil, rfl⟩
  | cons p rest ih =>
    obtain ⟨hp, hrest⟩ := List.forall_mem_cons.mp hprobs
    obtain ⟨items, hitems, hrow⟩ := rowSql_ok d incoming hp hlength
    obtain ⟨rows, hrows, hrowsSql⟩ := ih hrest
    refine ⟨items :: rows, .cons hitems hrows, ?_⟩
    rw [rowsSql, hrow, hrowsSql]
    rfl

/-- With all counts there is a statement, unless the table is to be temporary and cannot. -/
theorem tableSql_cases (d : Dialect) (incoming : Text) {counts : List Nat}
    (hprobs : ∀ p ∈ spec.probs, p.isFinite = true) (hname : outgoing ≠ [])
    (hlength : counts.length = spec.columns.length) :
    ((spec.temporary = true → ¬d.Lacks .temporaryTables) ∧
        ∃ sql, tableSql d spec incoming outgoing counts = .ok sql ∧
          MakesTable d spec incoming outgoing counts sql) ∨
      ((spec.temporary = true ∧ d.Lacks .temporaryTables) ∧
        tableSql d spec incoming outgoing counts =
          .error (.unsupported .quantile .temporaryTables d.name)) := by
  obtain ⟨rows, hrows, hrowsSql⟩ := rowsSql_ok d incoming hprobs hlength
  have hjudged := Sql.judged_resolve (d := d) .quantile hname spec.temporary
  rw [tableSql, if_neg (not_not.mpr hlength), hrowsSql]
  -- only the statement that creates the table can be refused
  cases hcreation : Creation.resolve d .quantile outgoing spec.temporary with
  | ok creation =>
    obtain rfl := Sql.resolve_ok hcreation
    exact Or.inl ⟨hjudged.ok hcreation, _, rfl, rows, hrows, rfl⟩
  | error e =>
    obtain ⟨htemporary, hlacks, rfl⟩ := hjudged.error hcreation
    exact Or.inr ⟨⟨htemporary, hlacks⟩, rfl⟩

/-! ## The dialogue -/

/-- **Asking for the counts.** All of them are asked for and read, and then the statement decides, or the
first answer that is no number ends the dialogue. -/
theorem requests_scriptFrom_cases (d : Dialect) (spec : QuantileSpec) (incoming outgoing : Text)
    (columns : List Text) (counts : List Nat) (answers : List (Option Text)) :
    (∃ read, AllCounted columns answers read ∧
        (scriptFrom d spec incoming outgoing counts columns).requests answers =
          match tableSql d spec incoming outgoing (counts ++ read) with
          | .ok sql =>
            ((columns.map (countSql d incoming)).map .query ++ [.execute sql], none)
          | .error e => ((columns.map (countSql d incoming)).map .query, some e)) ∨
      ∃ asked column rest value, columns = asked ++ column :: rest ∧
        Unreadable (answers[asked.length]?).join value ∧
        (scriptFrom d spec incoming outgoing counts columns).requests answers =
          (((asked ++ [column]).map (countSql d incoming)).map .query,
            some (.unexpectedCount value column)) := by
  induction columns generalizing counts answers with
  | nil =>
    refine Or.inl ⟨[], ⟨rfl, nofun⟩, ?_⟩
    rw [scriptFrom, List.append_nil]
    cases tableSql d spec incoming outgoing counts with
    | ok sql => rfl
    | error e => rfl
  | cons column columns ih =>
    have hhead : answers.head?.join = (answers[0]?).join := by rw [List.head?_eq_getElem?]
    have htail : ∀ i : Nat, answers.tail[i]? = answers[i + 1]? := fun i => List.getElem?_tail
    rw [scriptFrom, Script.requests]
    rcases readCount_cases column answers.head?.join with
      ⟨n, hcounted, hread⟩ | ⟨value, hunreadable, hread⟩
    · rw [hread]
      -- one column has been counted, and the script goes on with the next
      rcases ih (counts ++ [n]) answers.tail with
        ⟨read, hcounts, hrequests⟩ | ⟨asked, next, rest, value, rfl, hunreadable, hrequests⟩
      · refine Or.inl ⟨n :: read, ⟨congrArg (· + 1) hcounts.length, ?_⟩, ?_⟩
        · intro i m hm
          cases i with
          | zero =>
            obtain rfl := Option.some.inj hm
            exact hhead ▸ hcounted
          | succ i => exact htail i ▸ hcounts.counted i m hm
        · dsimp only
          rw [hrequests, List.append_assoc, List.singleton_append]
          cases tableSql d spec incoming outgoing (counts ++ n :: read) with
          | ok sql => rfl
          | error e => rfl
      · refine Or.inr ⟨column :: asked, next, rest, value, rfl, htail _ ▸ hunreadable, ?_⟩
        dsimp only
        rw [hrequests]
        rfl
    · -- the count of this column cannot be read, and nothing is asked after it
      refine Or.inr ⟨[], column, columns, value, rfl, hhead ▸ hunreadable, ?_⟩
      rw [hread]
      rfl

/-- How the dialogue of a summary can go. -/
inductive Run (d : Dialect) (spec : QuantileSpec) (incoming outgoing : Text)
    (answers : List (Option Text)) : List Script.Request × Option Error → Prop where
  | windowless (lacks : d.windowFunctions = false) :
      Run d spec incoming outgoing answers
        ([], some (.unsupported .quantile .windowFunctions d.name))
  | unreadable {asked rest : List Text} {column value : Text} (windows : d.windowFunctions = true)
      (columns : spec.columns = asked ++ column :: rest)
      (answer : Unreadable (answers[asked.length]?).join value) :
      Run d spec incoming outgoing answers
        (((asked ++ [column]).map (countSql d incoming)).map .query,
          some (.unexpectedCount value column))
  | barred {counts : List Nat} (windows : d.windowFunctions = true)
      (counted : AllCounted spec.columns answers counts) (temporary : spec.temporary = true)
      (lacks : d.Lacks .temporaryTables) :
      Run d spec incoming outgoing answers
        ((spec.columns.map (countSql d incoming)).map .query,
          some (.unsupported .quantile .temporaryTables d.name))
  | made {counts : List Nat} {sql : Text} (windows : d.windowFunctions = true)
      (counted : AllCounted spec.columns answers counts)
      (allowed : spec.temporary = true → ¬d.Lacks .temporaryTables)
      (table : MakesTable d spec incoming outgoing counts sql) :
      Run d spec incoming outgoing answers
        ((spec.columns.map (countSql d incoming)).map .query ++ [.execute sql], none)

theorem run_requests (d : Dialect) (incoming : Text) (hprobs : ∀ p ∈ spec.probs, p.isFinite = true)
    (hname : outgoing ≠ []) (answers : List (Option Text)) :
    Run d spec incoming outgoing answers ((script spec d incoming outgoing).requests answers) := by
  rw [script, Dialect.requireWindows]
  by_cases hwindows : d.windowFunctions = true
  · rw [if_pos hwindows]
    rcases requests_scriptFrom_cases d spec incoming outgoing spec.columns [] answers with
      ⟨counts, hcounts, hrequests⟩ | ⟨asked, column, rest, value, hcolumns, hanswer, hrequests⟩
    · -- every column was counted, so all that can still fail is the creation
      rw [hrequests, List.nil_append]
      rcases tableSql_cases d incoming hprobs hname hcounts.length with
        ⟨hallowed, sql, hsql, htable⟩ | ⟨⟨htemporary, hlacks⟩, herror⟩
      · rw [hsql]
        exact .made hwindows hcounts hallowed htable
      · rw [herror]
        exact .barred hwindows hcounts htemporary hlacks
    · rw [hrequests]
      exact .unreadable hwindows hcolumns hanswer
  · rw [if_neg hwindows]
    exact .windowless (Bool.eq_false_iff.mpr hwindows)

/-- Every probability of a summary is a number. -/
theorem isFinite_of_requireProbabilities {probs : List Binary64}
    (h : requireProbabilities probs = .ok ()) : ∀ p ∈ probs, p.isFinite = true := by
  induction probs with
  | nil => exact nofun
  | cons p rest ih =>
    rw [requireProbabilities] at h
    split at h
    · cases h
    · rename_i hin
      have hp : p.isFinite = true := by
        by_contra hp
        simp [hp] at hin
      exact List.forall_mem_cons.mpr ⟨hp, ih h⟩

/--
**A summary is made whole or not at all.**

Let a summary be accepted, and run its work between its own two tables, in any dialect and with any answers.
Either nothing is executed and there is an error, or there is none and one statement is executed, behind one
count for each column in the order of the columns. That statement makes the outgoing table out of one SELECT
for each probability in order, each with the probability and one item for each column; the item of a column
is NULL exactly if its count is zero or absent. There is an error exactly if the dialect has no windows, and
then nothing is asked either, or some answer is not read as a number, or the table is to be temporary where
there are no temporary tables and no ordinary one may stand in. In every case what is asked is counts of the
first columns.
-/
theorem quantile_all_or_nothing {digest : Text → Text} {tag : Text} {source node : Tree}
    {spec : QuantileSpec} (h : Pipeline.quantile digest tag source spec = .ok node) :
    ∃ full transform, full = resolve digest source spec ∧
      node = .externalTransform source full.columns (full.probsName :: full.columns) transform
        full.incoming full.outgoing full.temporary ∧
      ∀ (d : Dialect) (answers : List (Option Text)),
        let script := transform.script d full.incoming full.outgoing
        let transcript := (script.play answers).1
        let queries := full.columns.map (countSql d full.incoming)
        (transcript.error ≠ none ∧ transcript.executed = [] ∨
          ∃ counts sql, transcript = ⟨queries, [sql], none⟩ ∧
            script.requests answers = (queries.map .query ++ [.execute sql], none) ∧
            AllCounted full.columns answers counts ∧
            MakesTable d full full.incoming full.outgoing counts sql) ∧
        transcript.queried <+: queries ∧
        (transcript.error ≠ none ↔
          d.windowFunctions = false ∨
            (∃ i value, i < full.columns.length ∧ Unreadable (answers[i]?).join value) ∨
            full.temporary = true ∧ d.temporaryTables = false ∧ d.temporaryFallback = false) ∧
        (d.windowFunctions = false → transcript.queried = []) := by
  obtain ⟨-, -, -, -, -, hprobs, hchecks, rfl⟩ := Pipeline.quantile_ok_iff.mp h
  refine ⟨_, _, rfl, rfl, fun d answers => ?_⟩
  have hrun := run_requests d (resolve digest source spec).incoming
    (isFinite_of_requireProbabilities hprobs) hchecks.outgoingNamed answers
  -- past the first check the last part has nothing to say
  have hquiet : ∀ {queried : List Text}, d.windowFunctions = true →
      d.windowFunctions = false → queried = [] :=
    fun windows lacks => absurd (lacks.symm.trans windows) Bool.false_ne_true
  dsimp only
  rw [Script.play_eq_requests]
  generalize (script (resolve digest source spec) d _ _).requests answers = requests at hrun ⊢
  cases hrun with
  | windowless lacks =>
    exact ⟨Or.inl ⟨nofun, rfl⟩, List.nil_prefix, iff_of_true nofun (Or.inl lacks), fun _ => rfl⟩
  | @unreadable asked rest column value windows columns answer =>
    have hasked : asked.length < (resolve digest source spec).columns.length := by
      rw [columns, List.length_append, List.length_cons]
      omega
    have hprefix : asked ++ [column] <+: (resolve digest source spec).columns :=
      ⟨rest, by rw [columns, List.append_assoc, List.singleton_append]⟩
    rw [Script.Request.filterMap_queried, Script.Request.filterMap_executed]
    refine ⟨Or.inl ⟨nofun, rfl⟩, hprefix.map _, iff_of_true nofun ?_, hquiet windows⟩
    exact Or.inr (Or.inl ⟨asked.length, value, hasked, answer⟩)
  | barred windows counted temporary lacks =>
    rw [Script.Request.filterMap_queried, Script.Request.filterMap_executed]
    refine ⟨Or.inl ⟨nofun, rfl⟩, List.prefix_refl _, iff_of_true nofun ?_, hquiet windows⟩
    exact Or.inr (Or.inr ⟨temporary, lacks⟩)
  | @made counts sql windows counted allowed table =>
    rw [Script.Request.filterMap_queried_concat, Script.Request.filterMap_executed_concat]
    refine ⟨Or.inr ⟨counts, sql, rfl, rfl, counted, table⟩, List.prefix_refl _, ?_, hquiet windows⟩
    refine iff_of_false (fun hne => hne rfl) ?_
    rintro (lacks | ⟨i, value, hi, hunreadable⟩ | ⟨htemporary, hlacks⟩)
    · exact Bool.false_ne_true (lacks.symm.trans windows)
    · exact counted.not_unreadable hi hunreadable
    · exact allowed htemporary hlacks

/-- The answers `0` and ` 7` to the counts of two columns. -/
def twoAnswers : List (Option Text) := [some [48], some [32, 55]]

theorem twoAnswers_counted {counts : List Nat} (h : AllCounted [[120], [121]] twoAnswers counts) :
    counts = [0, 7] := by
  have hzero : Count.word (Text.untilNul [48]) = some 0 := by decide
  have hseven : Count.word (Text.untilNul [32, 55]) = some 7 := by decide
  obtain ⟨first, second, rfl⟩ := List.length_eq_two.mp h.length
  obtain rfl : first = 0 := by
    cases h.counted 0 first rfl with
    | read hread => exact Option.some.inj (hread.symm.trans hzero)
  obtain rfl : second = 7 := by
    cases h.counted 1 second rfl with
    | read hread => exact Option.some.inj (hread.symm.trans hseven)
  rfl

/-- The least `x` and `y` of `m`, of which `x` has no value: a statement where there are temporary tables,
and none where there are not. -/
theorem quantile_all_or_nothing_emptyColumn :
    ∃ full transform,
      Pipeline.quantile Digest.hex [113] Tree.measured (Tree.minimumSpec [[120], [121]] true) =
        .ok (.externalTransform Tree.measured full.columns (full.probsName :: full.columns) transform
          full.incoming full.outgoing full.temporary) ∧
      (∃ sql, ((transform.script .generic full.incoming full.outgoing).play twoAnswers).1.executed =
          [sql] ∧ MakesTable .generic full full.incoming full.outgoing [0, 7] sql) ∧
      ((transform.script .spark full.incoming full.outgoing).play twoAnswers).1.error ≠ none ∧
      ((transform.script .spark full.incoming full.outgoing).play twoAnswers).1.executed = [] := by
  have hbuilt : Pipeline.quantile Digest.hex [113] Tree.measured
      (Tree.minimumSpec [[120], [121]] true) = .ok (Tree.minimum Tree.measured [[120], [121]] true) :=
    Tree.quantile_minimum rfl rfl rfl rfl ⟨by decide, by decide⟩
  obtain ⟨full, transform, hfull, hnode, hruns⟩ := quantile_all_or_nothing hbuilt
  have hcolumns : full.columns = [[120], [121]] := hfull ▸ rfl
  have htemporary : full.temporary = true := hfull ▸ rfl
  refine ⟨full, transform, hnode ▸ hbuilt, ?_, ?_⟩
  · obtain ⟨houtcome, -, hfails, -⟩ := hruns .generic twoAnswers
    have hgood : ¬(Dialect.generic.windowFunctions = false ∨
        (∃ i value, i < full.columns.length ∧ Unreadable (twoAnswers[i]?).join value) ∨
        full.temporary = true ∧ Dialect.generic.temporaryTables = false ∧
          Dialect.generic.temporaryFallback = false) := by
      rintro (hwindows | ⟨i, value, hi, hvalue, hunread⟩ | ⟨-, htables, -⟩)
      · cases hwindows
      · rw [hcolumns] at hi
        match i, hi with
        | 0, _ =>
          obtain rfl := Option.some.inj hvalue
          exact absurd hunread (by decide)
        | 1, _ =>
          obtain rfl := Option.some.inj hvalue
          exact absurd hunread (by decide)
      · cases htables
    rcases houtcome with ⟨herror, -⟩ | ⟨counts, sql, hmade, -, hcounted, htable⟩
    · exact absurd (hfails.mp herror) hgood
    · rw [hcolumns] at hcounted
      obtain rfl := twoAnswers_counted hcounted
      exact ⟨sql, congrArg Transcript.executed hmade, htable⟩
  · obtain ⟨houtcome, -, hfails, -⟩ := hruns .spark twoAnswers
    have herror := hfails.mpr (Or.inr (Or.inr ⟨htemporary, rfl, rfl⟩))
    rcases houtcome with ⟨-, hnothing⟩ | ⟨counts, sql, hmade, -⟩
    · exact ⟨herror, hnothing⟩
    · exact absurd (congrArg Transcript.error hmade) herror

end Quantile

end SqlPipeline
