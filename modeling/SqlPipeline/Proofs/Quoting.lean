import SqlPipeline.Dialect
import SqlPipeline.Proofs.Tokens

/-!
# Quoted text ends where its closing quote says

Names and string constants are put between quotes, with each closing quote inside
them written twice. Whatever bytes they hold, a reader that stands behind the opening
quote can tell where they end: at the first closing quote that no second one follows.
So a quoted text in front of a rest determines both, as long as the rest does not start
with the quote, and no name or constant can reach into the statement around it.

The reader is `Lexeme.quotedBody`, which the scan uses behind apostrophes, double quotes
and backticks. For the uniqueness it serves every pair of quotes, because it looks for
the closing one only.
-/

namespace SqlPipeline

namespace Lexeme

theorem enclose_eq (opening closing : UInt8) (t : Text) :
    Literal.enclose opening closing t = opening :: (doubled closing t ++ [closing]) := rfl

theorem length_enclose (opening closing : UInt8) (t : Text) :
    (Literal.enclose opening closing t).length = (doubled closing t).length + 1 + 1 := by
  simp [enclose_eq]

/-- A quoted text in front of a rest can be taken apart in one way only. -/
theorem enclose_append_inj {opening closing : UInt8} {t u r s : Text}
    (hr : r.head? ≠ some closing) (hs : s.head? ≠ some closing)
    (h : Literal.enclose opening closing t ++ r = Literal.enclose opening closing u ++ s) :
    t = u ∧ r = s := by
  have hbody : doubled closing t ++ closing :: r = doubled closing u ++ closing :: s := by
    simpa [enclose_eq] using h
  have hread := quotedBody_doubled closing t hr
  rw [hbody, quotedBody_doubled closing u hs] at hread
  obtain ⟨rfl, -⟩ := Prod.mk.inj (Option.some.inj hread)
  exact ⟨rfl, List.append_cancel_left h⟩

/-- What stands at a quote is the text that was quoted, up to its closing quote. -/
theorem quoted_doubled (kind : Token.Kind) (complaint : Text) (quote : UInt8) (t : Text) {rest : Text}
    (h : rest.head? ≠ some quote) :
    quoted kind complaint quote (doubled quote t ++ [quote] ++ rest) =
      ⟨kind, t, (doubled quote t).length + 1⟩ := by
  rw [List.append_assoc, List.singleton_append, quoted, quotedBody_doubled quote t h]

end Lexeme

/-- The token of a quoted text ends where the rest begins, and the scan goes on there. -/
theorem Token.scanFrom_enclose {quote : UInt8} {kind : Token.Kind} {complaint : Text}
    (hfront : ∀ u, Lexeme.front quote u = Lexeme.quoted kind complaint quote u)
    (hblank : Text.isBlank quote = false) (pos : Nat) (t : Text) {rest : Text}
    (h : rest.head? ≠ some quote) :
    scanFrom pos (Literal.enclose quote quote t ++ rest) =
      ⟨kind, t, pos, pos + (Literal.enclose quote quote t).length⟩ ::
        scanFrom (pos + (Literal.enclose quote quote t).length) rest := by
  -- the scan goes on behind the closing quote, which is where the text ends
  have hrest : (Lexeme.doubled quote t ++ [quote] ++ rest).drop
      ((Lexeme.doubled quote t).length + 1) = rest := by
    rw [← List.length_singleton, ← List.length_append, List.drop_left]
  have hstop : pos + 1 + ((Lexeme.doubled quote t).length + 1) =
      pos + (Literal.enclose quote quote t).length := by
    rw [Lexeme.length_enclose]
    omega
  rw [Lexeme.enclose_eq, List.cons_append, scanFrom, hblank, if_neg Bool.false_ne_true, hfront,
    Lexeme.quoted_doubled kind complaint quote t h]
  simp only [hrest, hstop, Lexeme.enclose_eq]

namespace Dialect

/--
**Quoted names and constants delimit themselves.**

A name quoted by a dialect, in front of a rest that does not start with the closing quote, determines the
name and the rest, whatever the quotes are and whatever bytes the name holds. A dialect that quotes with
double quotes or backticks on both sides writes names that scan back: the first token is the name, it ends
where the rest begins, and the scan goes on with the rest. The same holds of every string constant and
every rest that does not start with an apostrophe, in every dialect.
-/
theorem quote_delimits (d : Dialect) :
    (∀ name name' rest rest' : Text, rest.head? ≠ some d.quoteClose →
        rest'.head? ≠ some d.quoteClose → d.quote name ++ rest = d.quote name' ++ rest' →
          name = name' ∧ rest = rest') ∧
      (d.quoteOpen = d.quoteClose → d.quoteClose = Text.doubleQuote ∨ d.quoteClose = Text.backtick →
        ∀ name rest : Text, rest.head? ≠ some d.quoteClose →
          Token.scan (d.quote name ++ rest) =
            ⟨.quotedIdentifier, name, 0, (d.quote name).length⟩ ::
              Token.scanFrom (d.quote name).length rest) ∧
      ∀ value rest : Text, rest.head? ≠ some Text.apostrophe →
        ∃ sql, d.literal (.string value) = .ok sql ∧
          Token.scan (sql ++ rest) =
            ⟨.string, value, 0, sql.length⟩ :: Token.scanFrom sql.length rest := by
  refine ⟨fun _ _ _ _ hr hs h => Lexeme.enclose_append_inj hr hs h,
    fun hboth hquote name rest hrest => ?_, fun value rest hrest => ?_⟩
  · -- both quotes that are scanned as names take the same path
    have hfront : ∀ u, Lexeme.front d.quoteClose u =
        Lexeme.quoted .quotedIdentifier "unterminated quoted identifier" d.quoteClose u := by
      rcases hquote with hq | hq <;> rw [hq] <;> exact fun _ => rfl
    have hblank : Text.isBlank d.quoteClose = false := by
      rcases hquote with hq | hq <;> rw [hq] <;> decide
    simpa [Token.scan, quote, hboth] using Token.scanFrom_enclose hfront hblank 0 name hrest
  · refine ⟨Literal.enclose Text.apostrophe Text.apostrophe value, rfl, ?_⟩
    simpa [Token.scan] using Token.scanFrom_enclose (fun _ => rfl) (by decide) 0 value hrest

/-- The name `]` in brackets in front of a point, and a name and a constant that end in their quote. -/
theorem quote_delimits_endingQuotes :
    (∀ name rest : Text, rest.head? ≠ some 93 →
        { generic with quoteOpen := 91, quoteClose := 93 : Dialect }.quote [93] ++ [46] =
          { generic with quoteOpen := 91, quoteClose := 93 : Dialect }.quote name ++ rest →
          [93] = name ∧ [46] = rest) ∧
      Token.scan (spark.quote [97, 96] ++ [46]) =
        ⟨.quotedIdentifier, [97, 96], 0, 5⟩ :: Token.scanFrom 5 [46] ∧
      ∃ sql, sqlite.literal (.string [39]) = .ok sql ∧
        Token.scan (sql ++ [44]) = ⟨.string, [39], 0, sql.length⟩ :: Token.scanFrom sql.length [44] := by
  refine ⟨fun name rest hrest h => ?_, ?_, ?_⟩
  · exact (quote_delimits { generic with quoteOpen := 91, quoteClose := 93 }).1 _ _ _ _
      (by decide) hrest h
  · exact (quote_delimits spark).2.1 rfl (Or.inr rfl) [97, 96] [46] (by decide)
  · exact (quote_delimits sqlite).2.2 [39] [44] (by decide)

end Dialect

end SqlPipeline
