import SqlPipeline.Sql.Query

/-!
# The text of a query

Each clause stands on a line of its own, and a subquery stands between the lines
of its parentheses, two spaces further in. Only the layout depends on how deep a
query is nested: the text of an expression is the same at every depth, because
indentation is written in front of lines and never put into text that is there.

`Query.print` says what the text is. It copies a subquery once for every query
around it, so a statement is made with `Query.write`, which writes a query in front
of what comes after it and copies nothing; `Query.write_eq` says that the two agree.
`Query.lines` spells the text out line by line, and `Query.print_eq_lines` says that the
text is these lines with a line break between each two.
-/

namespace SqlPipeline.Sql

/-- The name of the subquery with a number. -/
def aliasName (scope : Nat) : Text := "relq_" ++ Text.ofNat scope

/-- A column as it is referred to. -/
def Ref.print (d : Dialect) : Ref → Text
  | bare name => d.quote name
  | through scope name => aliasName scope ++ "." ++ d.quote name

/-- A piece of a term; `input` is the text of the template's subquery. -/
def Part.print (d : Dialect) (input : Text) : Part → Text
  | ref r => r.print d
  | literal value => d.writeLiteral value
  | text value => value
  | .input => input

/-- A term. -/
def Term.print (d : Dialect) (t : Term) (input : Text) : Text := t.flatMap (Part.print d input)

/-- A term of an ordering. -/
def printOrderTerm (d : Dialect) (t : OrderTerm) : Text :=
  d.quote t.column ++ Text.onlyIf t.descending " DESC"

/-- An ordering with its keywords. -/
def printOrder (d : Dialect) (terms : List OrderTerm) : Text :=
  "ORDER BY " ++ Text.join ", " (terms.map (printOrderTerm d))

/-- A window after the expression that it belongs to. -/
def Window.print (d : Dialect) (w : Window) : Text :=
  let cut : List Text :=
    if w.partitionBy.isEmpty then [] else ["PARTITION BY " ++ d.quoteList w.partitionBy]
  let order : List Text := if w.orderBy.isEmpty then [] else [printOrder d w.orderBy]
  " OVER (" ++ Text.join " " (cut ++ order) ++ ")"

/-- The value of an item. -/
def Value.print (d : Dialect) : Value → Text
  | column r => r.print d
  | computed term window => term.print d [] ++ Text.ofOption (Window.print d) window
  | aggregate term => term.print d []
  | coalesce left right => "COALESCE(" ++ left.print d ++ ", " ++ right.print d ++ ")"

/-- An item of a select list. -/
def Item.print (d : Dialect) (i : Item) : Text :=
  i.value.print d ++ Text.ofOption (fun name => " AS " ++ d.quote name) i.label

/-- A select list with its keyword. -/
def printItems (d : Dialect) (items : List Item) : Text :=
  "SELECT " ++ Text.join ", " (items.map (Item.print d))

/-- The condition of a join. -/
def Condition.print (d : Dialect) (left right : Nat) : Condition → Text
  | keys names =>
    Text.join " AND " (names.map fun name =>
      (Ref.through left name).print d ++ " = " ++ (Ref.through right name).print d)
  | predicate term => term.print d []

/-- The indentation of a query that is nested so deep. -/
def indent (depth : Nat) : Text := Text.spaces (2 * depth)

/-- A new line of a query and what stands on it. -/
def line (depth : Nat) (t : Text) : Text := "\n" ++ indent depth ++ t

/-- A subquery, whose text is given, between parentheses and under its alias. -/
def subquery (depth : Nat) (inner : Text) (scope : Nat) : Text :=
  "(\n" ++ inner ++ line depth (") " ++ aliasName scope)

/-- The clauses after FROM, each on a new line. -/
def Clauses.print (d : Dialect) (depth : Nat) (c : Clauses) : Text :=
  Text.ofOption (fun t : Term => line depth ("WHERE " ++ t.print d [])) c.filter ++
    Text.onlyIf (!c.groupBy.isEmpty) (line depth ("GROUP BY " ++ d.quoteList c.groupBy)) ++
    Text.onlyIf (!c.orderBy.isEmpty) (line depth (printOrder d c.orderBy)) ++
    Text.ofOption (fun n => line depth ("LIMIT " ++ Text.ofNat n)) c.limit

/-- A query that is nested so deep. -/
def Query.print (d : Dialect) (depth : Nat) : Query → Text
  | read columns qualifier table limit =>
    indent depth ++ "SELECT " ++ d.quoteList columns ++
      line depth ("FROM " ++ Text.ofOption (fun s => d.quote s ++ ".") qualifier ++ d.quote table) ++
      Text.ofOption (fun n => line depth ("LIMIT " ++ Text.ofNat n)) limit
  | select items source scope clauses =>
    indent depth ++ printItems d items ++
      line depth ("FROM " ++ subquery depth (source.print d (depth + 1)) scope) ++
      clauses.print d depth
  | join items type left leftAlias right rightAlias on =>
    indent depth ++ printItems d items ++
      line depth ("FROM " ++ subquery depth (left.print d (depth + 1)) leftAlias) ++
      line depth (type.name ++ " JOIN " ++ subquery depth (right.print d (depth + 1)) rightAlias) ++
      line depth ("ON " ++ on.print d leftAlias rightAlias)
  | template _ body source scope =>
    indent depth ++ body.print d (subquery depth (source.print d (depth + 1)) scope)

/-! ## Writing in front of a rest -/

/-- A piece of a term in front of `rest`; `input` writes the template's subquery. -/
def Part.write (d : Dialect) (input : Text → Text) (part : Part) (rest : Text) : Text :=
  match part with
  | .input => input rest
  | part => part.print d [] ++ rest

/-- A subquery, which `inner` writes, between parentheses and under its alias, in front of `rest`. -/
def writeSubquery (depth : Nat) (inner : Text → Text) (scope : Nat) (rest : Text) : Text :=
  "(\n" ++ inner (line depth (") " ++ aliasName scope) ++ rest)

/-- A query that is nested so deep, in front of `rest`. -/
def Query.write (d : Dialect) (depth : Nat) : Query → Text → Text
  | read columns qualifier table limit, rest =>
    Query.print d depth (read columns qualifier table limit) ++ rest
  | select items source scope clauses, rest =>
    indent depth ++ (printItems d items ++ (line depth "FROM " ++
      writeSubquery depth (source.write d (depth + 1)) scope (clauses.print d depth ++ rest)))
  | join items type left leftAlias right rightAlias on, rest =>
    indent depth ++ (printItems d items ++ (line depth "FROM " ++
      writeSubquery depth (left.write d (depth + 1)) leftAlias
        (line depth (type.name ++ " JOIN ") ++
          writeSubquery depth (right.write d (depth + 1)) rightAlias
            (line depth ("ON " ++ on.print d leftAlias rightAlias) ++ rest))))
  | template _ body source scope, rest =>
    indent depth ++
      body.foldr (Part.write d (writeSubquery depth (source.write d (depth + 1)) scope)) rest

/-- The text of a statement. -/
def Query.statement (d : Dialect) (q : Query) : Text := q.write d 0 []

theorem writeSubquery_eq {inner : Text → Text} {text : Text}
    (h : ∀ rest, inner rest = text ++ rest) (depth scope : Nat) (rest : Text) :
    writeSubquery depth inner scope rest = subquery depth text scope ++ rest := by
  simp only [writeSubquery, subquery, h, List.append_assoc]

theorem Part.write_eq {input : Text → Text} {text : Text}
    (h : ∀ rest, input rest = text ++ rest) (d : Dialect) (part : Part) (rest : Text) :
    part.write d input rest = part.print d text ++ rest := by
  cases part with
  | input => exact h rest
  | _ => rfl

theorem Term.foldr_write_eq {input : Text → Text} {text : Text}
    (h : ∀ rest, input rest = text ++ rest) (d : Dialect) (t : Term) (rest : Text) :
    t.foldr (Part.write d input) rest = t.print d text ++ rest := by
  induction t with
  | nil => rfl
  | cons part t ih =>
    rw [List.foldr_cons, ih, Part.write_eq h, Term.print, Term.print, List.flatMap_cons,
      List.append_assoc]

theorem line_append (depth : Nat) (t u : Text) : line depth (t ++ u) = line depth t ++ u := by
  simp only [line, List.append_assoc]

/-- Writing in front of a rest puts the printed query there. -/
theorem Query.write_eq (d : Dialect) (q : Query) (depth : Nat) (rest : Text) :
    q.write d depth rest = q.print d depth ++ rest := by
  induction q generalizing depth rest with
  | read => rfl
  | select items source scope clauses ih =>
    simp only [Query.write, Query.print, writeSubquery_eq (ih (depth + 1)), line_append,
      List.append_assoc]
  | join items type left leftAlias right rightAlias on ihl ihr =>
    simp only [Query.write, Query.print, writeSubquery_eq (ihl (depth + 1)),
      writeSubquery_eq (ihr (depth + 1)), line_append, List.append_assoc]
  | template columns body source scope ih =>
    simp only [Query.write, Query.print,
      Term.foldr_write_eq (writeSubquery_eq (ih (depth + 1)) depth scope), List.append_assoc]

/-- A statement is the printed query. -/
theorem Query.statement_eq (d : Dialect) (q : Query) : q.statement d = q.print d 0 := by
  rw [Query.statement, Query.write_eq, List.append_nil]

/-! ## The text spelled out -/

/-- What stands in the parentheses of a window. -/
def Window.parts (d : Dialect) (w : Window) : List Text :=
  (match w.partitionBy with
    | [] => []
    | columns => ["PARTITION BY " ++ Text.join ", " (columns.map d.quote)]) ++
  (match w.orderBy with
    | [] => []
    | terms => ["ORDER BY " ++ Text.join ", " (terms.map (printOrderTerm d))])

/-- The words of an item: its value with the window, and the name that it gets. -/
def Item.words (d : Dialect) (i : Item) : List Text :=
  (match i.value with
    | .column (.bare name) => [d.quote name]
    | .column (.through scope name) => ["relq_" ++ Text.ofNat scope ++ "." ++ d.quote name]
    | .computed term none | .aggregate term => [term.print d []]
    | .computed term (some w) => [term.print d [], "OVER (" ++ Text.join " " (w.parts d) ++ ")"]
    | .coalesce left right => ["COALESCE(" ++ left.print d ++ ", " ++ right.print d ++ ")"]) ++
  i.label.toList.map fun name => "AS " ++ d.quote name

/-- The line of a select list. -/
def selectLine (d : Dialect) (items : List Item) : Text :=
  "SELECT " ++ Text.join ", " (items.map fun i => Text.join " " (i.words d))

/-- The lines of the clauses after FROM. -/
def Clauses.lines (d : Dialect) (c : Clauses) : List Text :=
  c.filter.toList.map (fun term => Text.ofString "WHERE " ++ term.print d []) ++
    (match c.groupBy with
      | [] => []
      | columns => ["GROUP BY " ++ Text.join ", " (columns.map d.quote)]) ++
    (match c.orderBy with
      | [] => []
      | terms => ["ORDER BY " ++ Text.join ", " (terms.map (printOrderTerm d))]) ++
    c.limit.toList.map fun n => Text.ofString "LIMIT " ++ Text.ofNat n

/-- The line that ends a subquery. -/
def endLine (scope : Nat) : Text := ") relq_" ++ Text.ofNat scope

/-- The lines of a query that is nested so deep. -/
def Query.lines (d : Dialect) (depth : Nat) : Query → List Text
  | read columns qualifier table limit =>
    (["SELECT " ++ Text.join ", " (columns.map d.quote),
      "FROM " ++ Text.join "." ((qualifier.toList ++ [table]).map d.quote)] ++
      Clauses.lines d ⟨none, [], [], limit⟩).map (indent depth ++ ·)
  | select items source scope clauses =>
    [indent depth ++ selectLine d items, indent depth ++ "FROM ("] ++
      source.lines d (depth + 1) ++
      (endLine scope :: clauses.lines d).map (indent depth ++ ·)
  | join items type left leftAlias right rightAlias on =>
    [indent depth ++ selectLine d items, indent depth ++ "FROM ("] ++
      left.lines d (depth + 1) ++
      [indent depth ++ endLine leftAlias, indent depth ++ (type.name ++ " JOIN (")] ++
      right.lines d (depth + 1) ++
      [indent depth ++ endLine rightAlias, indent depth ++ ("ON " ++ on.print d leftAlias rightAlias)]
  | template _ body source scope =>
    -- the subquery stands inside of a text, which may go on after it
    let inner := Text.ofString "(" :: source.lines d (depth + 1) ++ [indent depth ++ endLine scope]
    [indent depth ++ body.print d (Text.join "\n" inner)]

section Spelled

variable {d : Dialect}

theorem Window.print_eq_parts (w : Window) :
    w.print d = " " ++ ("OVER (" ++ Text.join " " (w.parts d) ++ ")") := by
  obtain ⟨partitionBy, order⟩ := w
  cases partitionBy <;> cases order <;> rfl

theorem Item.print_eq_words (i : Item) : i.print d = Text.join " " (i.words d) := by
  obtain ⟨value, label⟩ := i
  have hlabel : Text.ofOption (fun name => " AS " ++ d.quote name) label =
      (label.toList.map fun name => "AS " ++ d.quote name).flatMap ((" " : Text) ++ ·) := by
    cases label with
    | none => rfl
    | some name => exact (List.append_nil _).symm
  have hplain : ∀ t : Text, t ++ Text.ofOption (fun name => " AS " ++ d.quote name) label =
      Text.join " " (t :: label.toList.map fun name => "AS " ++ d.quote name) := by
    intro t
    rw [Text.join_cons, hlabel]
  cases value with
  | column r => cases r <;> exact hplain _
  | aggregate term => exact hplain (term.print d [])
  | coalesce left right => exact hplain _
  | computed term window =>
    cases window with
    | none =>
      refine Eq.trans ?_ (hplain (term.print d []))
      rw [Item.print, Value.print, Text.ofOption, Option.map_none, Option.getD_none, List.append_nil]
    | some w =>
      show term.print d [] ++ w.print d ++ Text.ofOption _ label =
        Text.join " " (term.print d [] :: ("OVER (" ++ Text.join " " (w.parts d) ++ ")") :: _)
      rw [Text.join_cons, List.flatMap_cons, w.print_eq_parts, hlabel, List.append_assoc]
      rfl

theorem selectLine_eq (items : List Item) : selectLine d items = printItems d items := by
  have hwords : (fun i : Item => Text.join " " (i.words d)) = Item.print d :=
    funext fun i => i.print_eq_words.symm
  rw [selectLine, hwords, printItems]

/-- Every clause is on a new line. -/
theorem Clauses.print_eq_lines (depth : Nat) (c : Clauses) :
    c.print d depth = ((c.lines d).map (indent depth ++ ·)).flatMap (("\n" : Text) ++ ·) := by
  obtain ⟨filter, groupBy, order, limit⟩ := c
  simp only [Clauses.print, Clauses.lines, List.map_append, List.flatMap_append]
  refine congr (congrArg _ (congr (congrArg _ (congr (congrArg _ ?_) ?_)) ?_)) ?_
  · cases filter with
    | none => rfl
    | some term => exact (List.append_nil _).symm
  · cases groupBy with
    | nil => rfl
    | cons name names => exact (List.append_nil _).symm
  · cases order with
    | nil => rfl
    | cons term terms => exact (List.append_nil _).symm
  · cases limit with
    | none => rfl
    | some n => exact (List.append_nil _).symm

theorem Query.lines_ne_nil (depth : Nat) (q : Query) : q.lines d depth ≠ [] := by
  cases q <;> simp [Query.lines]

/-- The lines of a subquery come between those of its parentheses. -/
theorem subquery_eq_lines {lines : List Text} (hne : lines ≠ []) (depth scope : Nat) :
    subquery depth (Text.join "\n" lines) scope =
      "(" ++ (lines ++ [indent depth ++ endLine scope]).flatMap (("\n" : Text) ++ ·) := by
  obtain ⟨first, rest, rfl⟩ := List.exists_cons_of_ne_nil hne
  have hopen : ("(\n" : Text) = "(" ++ "\n" := rfl
  have hend : endLine scope = ") " ++ aliasName scope := rfl
  rw [Text.join_cons, subquery, hopen, hend]
  simp only [line, List.flatMap_append, List.flatMap_cons, List.flatMap_nil, List.append_nil,
    List.append_assoc]

/-- **The text of a query is its lines**, with a line break between each two. -/
theorem Query.print_eq_lines (q : Query) (depth : Nat) :
    q.print d depth = Text.join "\n" (q.lines d depth) := by
  have hfrom : ∀ t : Text, "FROM " ++ ("(" ++ t) = "FROM (" ++ t := fun t => rfl
  have hjoin : ∀ t : Text, " JOIN " ++ ("(" ++ t) = " JOIN (" ++ t := fun t => rfl
  induction q generalizing depth with
  | read columns qualifier table limit =>
    have htable : Text.ofOption (fun s => d.quote s ++ ".") qualifier ++ d.quote table =
        Text.join "." ((qualifier.toList ++ [table]).map d.quote) := by
      cases qualifier with
      | none => simp [Text.ofOption, Text.join]
      | some s => simp [Text.ofOption, Text.join]
    have hlimit : Text.ofOption (fun n => line depth ("LIMIT " ++ Text.ofNat n)) limit = _ :=
      Clauses.print_eq_lines (d := d) depth ⟨none, [], [], limit⟩
    rw [Query.print, Dialect.quoteList, hlimit, List.append_assoc (Text.ofString "FROM "), htable]
    simp only [Query.lines, line, List.cons_append, List.nil_append, Text.join_cons, List.flatMap_cons,
      List.map_cons, List.append_assoc]
  | select items source scope clauses ih =>
    rw [Query.print, ih, subquery_eq_lines (source.lines_ne_nil _), clauses.print_eq_lines, hfrom,
      ← selectLine_eq]
    simp only [Query.lines, line, List.cons_append, List.nil_append, Text.join_cons, List.flatMap_append,
      List.flatMap_cons, List.flatMap_nil, List.append_nil, List.map_cons, List.append_assoc]
  | join items type left leftAlias right rightAlias on ihl ihr =>
    rw [Query.print, ihl, ihr, subquery_eq_lines (left.lines_ne_nil _),
      subquery_eq_lines (right.lines_ne_nil _), hfrom, List.append_assoc type.name, hjoin,
      ← selectLine_eq]
    simp only [Query.lines, line, List.cons_append, List.nil_append, Text.join_cons, List.flatMap_append,
      List.flatMap_cons, List.flatMap_nil, List.append_nil, List.append_assoc]
  | template columns body source scope ih =>
    rw [Query.print, Query.lines, ih, subquery_eq_lines (source.lines_ne_nil _), List.cons_append,
      ← Text.join_cons]
    simp only [Text.join_cons, List.flatMap_nil, List.append_nil]

end Spelled

end SqlPipeline.Sql
