import Mathlib.Data.List.Induction
import SqlPipeline.Expr.Reader
import SqlPipeline.Proofs.Tokens

/-!
# Which texts are expressions

The reader knows no operators and no precedence, so what it accepts can be said of
the row of tokens alone, without walking over it: no token is out of place by itself,
and the parentheses match. `Expr.WellFormed` says this, and `Expr.FirstOffence` says
which error is reported otherwise.

The walk carries the groups that are open. All that matters here is how many there
are: as many as the tokens read so far have opened and not closed. With that, a token
is refused exactly if it offends at its place, whatever stands after it.
-/

namespace SqlPipeline

namespace Token

/-- How many parentheses are opened. -/
def opens (tokens : List Token) : Nat := tokens.countP fun token => token.kind == .openParen

/-- How many parentheses are closed. -/
def closes (tokens : List Token) : Nat := tokens.countP fun token => token.kind == .closeParen

/-- Each parenthesis that is closed was opened before, and all that are opened are closed. -/
def Balanced (tokens : List Token) : Prop :=
  (∀ front, front <+: tokens → closes front ≤ opens front) ∧ closes tokens = opens tokens

@[simp] theorem opens_nil : opens [] = 0 := rfl

@[simp] theorem closes_nil : closes [] = 0 := rfl

@[simp] theorem opens_append (ts us : List Token) : opens (ts ++ us) = opens ts + opens us :=
  List.countP_append

@[simp] theorem closes_append (ts us : List Token) : closes (ts ++ us) = closes ts + closes us :=
  List.countP_append

@[simp] theorem opens_cons (token : Token) (ts : List Token) :
    opens (token :: ts) = (if token.kind = .openParen then 1 else 0) + opens ts := by
  simp [opens, List.countP_cons, Nat.add_comm]

@[simp] theorem closes_cons (token : Token) (ts : List Token) :
    closes (token :: ts) = (if token.kind = .closeParen then 1 else 0) + closes ts := by
  simp [closes, List.countP_cons, Nat.add_comm]

end Token

open Token

namespace Expr

/-- The number is an integer of 64 bits, or a double stands for it. -/
def Converts (t : Text) : Prop :=
  (t.all Text.isDigit ∧ Text.toNat t < Binary64.exp2 63) ∨ (Decimal.ofText t).outOfRange = false

/-- The token cannot stand after the tokens before it, and why. -/
inductive Offends (allowInput : Bool) (before : List Token) (token : Token) : SyntaxFault → Prop where
  | invalid (kind : token.kind = .invalid) :
      Offends allowInput before token (.unexpectedInput token.text)
  | unmatched (kind : token.kind = .closeParen) (closed : opens before ≤ closes before) :
      Offends allowInput before token .unexpectedClose
  | unnamed (kind : token.kind = .quotedIdentifier) (empty : token.text = []) :
      Offends allowInput before token .emptyQuotedIdentifier
  | placeholder (kind : token.kind = .input) (refused : allowInput = false) :
      Offends allowInput before token .inputNotAllowed
  | number (kind : token.kind = .number) (unconverted : ¬Converts token.text) :
      Offends allowInput before token (.invalidNumber token.text)

/-- None of the tokens offends where it stands after those before it. -/
def Clean (allowInput : Bool) (before tokens : List Token) : Prop :=
  ∀ mid token after, tokens = mid ++ token :: after →
    ∀ fault, ¬Offends allowInput (before ++ mid) token fault

/-- The tokens form an expression. -/
structure WellFormed (allowInput : Bool) (tokens : List Token) : Prop where
  nonempty : tokens ≠ []
  valid : ∀ token ∈ tokens, token.kind ≠ .invalid
  balanced : Balanced tokens
  named : ∀ token ∈ tokens, token.kind = .quotedIdentifier → token.text ≠ []
  placed : ∀ token ∈ tokens, token.kind = .input → allowInput = true
  numbers : ∀ token ∈ tokens, token.kind = .number → Converts token.text

/-- The error is about the first token that offends, from left to right. Where none does, it is about the
end of the text: there is no token, or a parenthesis is still open. -/
inductive FirstOffence (allowInput : Bool) (source : Text) : SyntaxError → Prop where
  | nothing (empty : scan source = []) :
      FirstOffence allowInput source ⟨.expectedExpression, source.length⟩
  | token {before after : List Token} {token : Token} {fault : SyntaxFault}
      (split : scan source = before ++ token :: after) (clean : Clean allowInput [] before)
      (offends : Offends allowInput before token fault) :
      FirstOffence allowInput source ⟨fault, token.pos⟩
  | unclosed (nonempty : scan source ≠ []) (clean : Clean allowInput [] (scan source))
      (opened : closes (scan source) < opens (scan source)) :
      FirstOffence allowInput source ⟨.expectedClose, source.length⟩

/-! ## One token -/

theorem numberConstant?_eq_none_iff {t : Text} : numberConstant? t = none ↔ ¬Converts t := by
  unfold numberConstant? Converts
  by_cases hint : t.all Text.isDigit = true ∧ Text.toNat t < Binary64.exp2 63
  · rw [if_pos hint]
    exact ⟨nofun, fun hno => absurd (Or.inl hint) hno⟩
  · rw [if_neg hint]
    dsimp only
    cases (Decimal.ofText t).outOfRange with
    | true => exact ⟨fun _ hyes => hyes.elim hint nofun, fun _ => if_pos rfl⟩
    | false => exact ⟨nofun, fun hno => absurd (Or.inr rfl) hno⟩

/-- As many groups are open as the tokens so far have opened and not closed. -/
def AtDepth (before : List Token) (p : Position) : Prop :=
  p.outer.length + closes before = opens before

variable {allowInput : Bool} {before tokens : List Token} {p p' : Position} {token : Token}
  {beforeParen : Bool} {fault : SyntaxFault} {piece : Piece}

theorem atDepth_start : AtDepth [] .start := rfl

/-- A token is refused exactly if it offends. -/
theorem readToken_error_iff (h : AtDepth before p) :
    readToken allowInput p token beforeParen = .error fault ↔
      Offends allowInput before token fault := by
  -- a closing parenthesis is unmatched exactly if no group is open before it
  have hdepth : p.outer = [] ↔ opens before ≤ closes before := by
    rw [AtDepth] at h
    rw [← List.length_eq_zero_iff]
    omega
  constructor
  · intro hr
    -- the reader fails in five of its branches, and each is one kind of offence
    unfold readToken at hr
    split at hr
    · cases hr
    · rename_i hk
      split at hr
      · rename_i hnone
        cases hr
        exact .unmatched hk (hdepth.mp hnone)
      · cases hr
    · cases hr
    · rename_i hk
      split at hr
      · rename_i hempty
        cases hr
        exact .unnamed hk (List.isEmpty_iff.mp hempty)
      · cases hr
    · cases hr
    · rename_i hk
      split at hr
      · cases hr
      · rename_i hnone
        cases hr
        exact .number hk (numberConstant?_eq_none_iff.mp hnone)
    · rename_i hk
      split at hr
      · cases hr
      · rename_i hrefused
        cases hr
        exact .placeholder hk (by simpa using hrefused)
    · cases hr
    · cases hr
    · rename_i hk
      cases hr
      exact .invalid hk
  · intro ho
    cases ho with
    | invalid hk => simp [readToken, hk]
    | unmatched hk hclosed => simp [readToken, hk, hdepth.mpr hclosed]
    | unnamed hk hempty => simp [readToken, hk, hempty]
    | placeholder hk hrefused => simp [readToken, hk, hrefused]
    | number hk hno => simp [readToken, hk, numberConstant?_eq_none_iff.mpr hno]

/-- The piece of a token that has the same meaning wherever it stands. -/
inductive PlainPiece (token : Token) : Piece → Prop where
  | quoted (kind : token.kind = .quotedIdentifier) : PlainPiece token (.var token.text)
  | string (kind : token.kind = .string) : PlainPiece token (.const (.string token.text))
  | number {value : Literal} (kind : token.kind = .number)
      (converted : numberConstant? token.text = some value) : PlainPiece token (.const value)
  | placeholder (kind : token.kind = .input) : PlainPiece token .input
  | comma (kind : token.kind = .comma) : PlainPiece token (.text token.text)
  | operator (kind : token.kind = .operator) : PlainPiece token (.text token.text)

/-- What reading one token can do. -/
inductive TokenStep (p : Position) (token : Token) (beforeParen : Bool) : Position → Piece → Prop where
  | opening (kind : token.kind = .openParen) :
      TokenStep p token beforeParen ⟨.opened p.next, p.pass.group :: p.outer, .plain⟩ (.text "(")
  | closing {group : Group} {outer : List Group} (kind : token.kind = .closeParen)
      (enclosed : p.outer = group :: outer) :
      TokenStep p token beforeParen ⟨group, outer, .plain⟩ (.text ")")
  | name (kind : token.kind = .identifier) :
      TokenStep p token beforeParen (readName p token.text beforeParen).1
        (readName p token.text beforeParen).2
  | plain {piece : Piece} (meant : PlainPiece token piece) : TokenStep p token beforeParen p.pass piece

theorem readToken_ok (hr : readToken allowInput p token beforeParen = .ok (p', piece)) :
    TokenStep p token beforeParen p' piece := by
  -- one step for each kind of token, and none for those that are refused
  unfold readToken at hr
  split at hr
  · rename_i hk
    cases hr
    exact .opening hk
  · rename_i hk
    split at hr
    · cases hr
    · rename_i group outer houter
      cases hr
      exact .closing hk houter
  · rename_i hk
    have hname : TokenStep p token beforeParen (readName p token.text beforeParen).1
      (readName p token.text beforeParen).2 := .name hk
    rwa [Except.ok.inj hr] at hname
  · rename_i hk
    split at hr
    · cases hr
    · cases hr
      exact .plain (.quoted hk)
  · rename_i hk
    cases hr
    exact .plain (.string hk)
  · rename_i hk
    split at hr
    · rename_i value hvalue
      cases hr
      exact .plain (.number hk hvalue)
    · cases hr
  · rename_i hk
    split at hr
    · cases hr
      exact .plain (.placeholder hk)
    · cases hr
  · rename_i hk
    cases hr
    exact .plain (.comma hk)
  · rename_i hk
    cases hr
    exact .plain (.operator hk)
  · cases hr

theorem PlainPiece.not_paren (h : PlainPiece token piece) :
    token.kind ≠ .openParen ∧ token.kind ≠ .closeParen := by
  cases h <;> simp_all

theorem readName_outer (p : Position) (name : Text) (beforeParen : Bool) :
    (readName p name beforeParen).1.outer = p.outer := by
  unfold readName
  split <;> rfl

/-- A token that is not refused keeps the count of open groups. -/
theorem AtDepth.step (h : AtDepth before p) (hs : TokenStep p token beforeParen p' piece) :
    AtDepth (before ++ [token]) p' := by
  rw [AtDepth] at h
  cases hs with
  | opening hk =>
    simp only [AtDepth, List.length_cons, closes_append, closes_cons, hk, reduceCtorEq, if_false,
      closes_nil, opens_append, opens_cons, if_true, opens_nil]
    omega
  | closing hk houter =>
    rw [houter, List.length_cons] at h
    simp only [AtDepth, closes_append, closes_cons, hk, if_true, closes_nil, opens_append, opens_cons,
      reduceCtorEq, if_false, opens_nil]
    omega
  | name hk => simpa [AtDepth, readName_outer, hk] using h
  | plain meant => simpa [AtDepth, Position.pass, meant.not_paren] using h

/-! ## All tokens -/

theorem clean_nil : Clean allowInput before [] := by
  intro mid token after h
  cases mid <;> cases h

theorem clean_cons (h : ∀ fault, ¬Offends allowInput before token fault)
    (hrest : Clean allowInput (before ++ [token]) tokens) :
    Clean allowInput before (token :: tokens) := by
  intro mid other after hsplit fault
  cases mid with
  | nil =>
    obtain ⟨rfl, -⟩ := List.cons.inj hsplit
    rw [List.append_nil]
    exact h fault
  | cons first mid =>
    obtain ⟨rfl, htokens⟩ := List.cons.inj hsplit
    have hother := hrest mid other after htokens fault
    rwa [List.append_assoc] at hother

/-- What comes of reading the tokens after those before: they are all read, the first that offends is
refused, or a parenthesis is still open at the end of the text. -/
inductive Verdict (allowInput : Bool) (before tokens : List Token) (stop : Nat) :
    Except SyntaxError (List Piece) → Prop where
  | accepted {pieces : List Piece} (clean : Clean allowInput before tokens)
      (closed : closes (before ++ tokens) = opens (before ++ tokens)) :
      Verdict allowInput before tokens stop (.ok pieces)
  | refused {mid after : List Token} {token : Token} {fault : SyntaxFault}
      (split : tokens = mid ++ token :: after) (clean : Clean allowInput before mid)
      (offends : Offends allowInput (before ++ mid) token fault) :
      Verdict allowInput before tokens stop (.error ⟨fault, token.pos⟩)
  | unclosed (clean : Clean allowInput before tokens)
      (opened : closes (before ++ tokens) < opens (before ++ tokens)) :
      Verdict allowInput before tokens stop (.error ⟨.expectedClose, stop⟩)

/-- The verdict on the rest is the verdict on all, once the first token is read. -/
theorem Verdict.cons {stop : Nat} {result : Except SyntaxError (List Piece)}
    (h : Verdict allowInput (before ++ [token]) tokens stop result)
    (hok : ∀ fault, ¬Offends allowInput before token fault) (gap : Text) (piece : Piece) :
    Verdict allowInput before (token :: tokens) stop
      (result.map fun pieces => .text gap :: piece :: pieces) := by
  cases h with
  | accepted clean closed =>
    refine .accepted (clean_cons hok clean) ?_
    rwa [List.append_assoc] at closed
  | refused split clean offends =>
    refine .refused (congrArg (token :: ·) split) (clean_cons hok clean) ?_
    rwa [List.append_assoc] at offends
  | unclosed clean opened =>
    refine .unclosed (clean_cons hok clean) ?_
    rwa [List.append_assoc] at opened

/-- **Reading tokens that cover a text** comes to the verdict on them. -/
theorem readTokens_verdict {last : Nat} {source : Text} (ht : Tiled last source tokens)
    (h : AtDepth before p) :
    Verdict allowInput before tokens (last + source.length)
      (readTokens allowInput source p last tokens) := by
  induction ht generalizing before p with
  | done blank =>
    rw [AtDepth] at h
    rw [readTokens]
    split
    · rename_i hempty
      rw [List.isEmpty_iff] at hempty
      rw [hempty] at h
      exact .accepted clean_nil (by simpa using h)
    · rename_i hgroups
      -- a group that is still open at the end has no token to blame
      have hpos : 0 < p.outer.length := by
        rw [List.isEmpty_iff] at hgroups
        exact List.length_pos_iff.mpr hgroups
      refine .unclosed clean_nil ?_
      rw [List.append_nil]
      omega
  | @next last gap spelled rest token tokens blank nonempty pos_eq stop_eq covered ih =>
    rw [readTokens]
    have hend : last + (gap ++ spelled ++ rest).length = token.stop + rest.length := by
      rw [List.length_append, List.length_append]
      omega
    cases hr : readToken allowInput p token (opensParen tokens) with
    | error fault =>
      have hoffends := (readToken_error_iff h).mp hr
      refine .refused (List.nil_append _).symm clean_nil ?_
      rwa [List.append_nil]
    | ok step =>
      obtain ⟨p', piece⟩ := step
      -- a token that was read is no offence, so the first one is further on
      have hok : ∀ fault, ¬Offends allowInput before token fault := by
        intro fault hoffends
        rw [(readToken_error_iff h).mpr hoffends] at hr
        cases hr
      have hrest := ih (h.step (readToken_ok hr))
      rw [hend]
      dsimp only
      rw [drop_past pos_eq stop_eq]
      cases hresult : readTokens allowInput rest p' token.stop tokens with
      | error e =>
        rw [hresult] at hrest
        exact hrest.cons hok gap piece
      | ok pieces =>
        rw [hresult] at hrest
        exact hrest.cons hok _ piece

/-! ## The grammar -/

/-- Tokens that do not offend, and parentheses that are all closed, are the whole grammar. -/
theorem wellFormed_iff :
    WellFormed allowInput tokens ↔
      tokens ≠ [] ∧ Clean allowInput [] tokens ∧ closes tokens = opens tokens := by
  constructor
  · intro h
    refine ⟨h.nonempty, ?_, h.balanced.2⟩
    intro mid token after hsplit fault hoffends
    have hmem : token ∈ tokens := by simp [hsplit]
    cases hoffends with
    | invalid hk => exact h.valid token hmem hk
    | unmatched hk hclosed =>
      have hfront : mid ++ [token] <+: tokens := ⟨after, by simp [hsplit]⟩
      have hle := h.balanced.1 _ hfront
      simp [hk] at hle hclosed
      omega
    | unnamed hk hempty => exact h.named token hmem hk hempty
    | placeholder hk hrefused =>
      rw [h.placed token hmem hk] at hrefused
      cases hrefused
    | number hk hno => exact hno (h.numbers token hmem hk)
  · intro h
    obtain ⟨hne, hclean, hclosed⟩ := h
    have hat : ∀ token ∈ tokens, ∃ mid, ∀ fault, ¬Offends allowInput mid token fault := by
      intro token hmem
      obtain ⟨mid, after, hsplit⟩ := List.append_of_mem hmem
      exact ⟨mid, hclean mid token after hsplit⟩
    refine ⟨hne, ?_, ⟨?_, hclosed⟩, ?_, ?_, ?_⟩
    · intro token hmem hk
      obtain ⟨mid, hno⟩ := hat token hmem
      exact hno _ (.invalid hk)
    · -- a front that closes more than it opens has a first token that does
      intro front hfront
      induction front using List.reverseRecOn with
      | nil => exact Nat.le_refl _
      | append_singleton front token ih =>
        have hle := ih ((List.prefix_append front [token]).trans hfront)
        obtain ⟨after, hafter⟩ := hfront
        have hno := hclean front token after (by simp [← hafter])
        by_cases hk : token.kind = .closeParen
        · have hlt : ¬opens front ≤ closes front := fun hc => hno _ (.unmatched hk hc)
          simp [hk]
          omega
        · simp [hk]
          omega
    · intro token hmem hk hempty
      obtain ⟨mid, hno⟩ := hat token hmem
      exact hno _ (.unnamed hk hempty)
    · intro token hmem hk
      obtain ⟨mid, hno⟩ := hat token hmem
      by_contra hrefused
      exact hno _ (.placeholder hk (by simpa using hrefused))
    · intro token hmem hk
      obtain ⟨mid, hno⟩ := hat token hmem
      by_contra hunconverted
      exact hno _ (.number hk hunconverted)

theorem read_of_scan_eq_nil {source : Text} (h : scan source = []) :
    read source allowInput = .error ⟨.expectedExpression, source.length⟩ := by
  rw [read, h]

/-- A text with tokens is read token by token. -/
theorem read_of_scan_ne_nil {source : Text} (h : scan source ≠ []) :
    read source allowInput =
      (readTokens allowInput source .start 0 (scan source)).map ofPieces := by
  unfold read
  split
  · contradiction
  · cases readTokens allowInput source .start 0 (scan source) <;> rfl

/--
**The reader accepts exactly the grammar and reports the first offence.**

An expression comes out exactly if there is a token, none is invalid, parentheses match, no name in quotes
is empty, placeholders stand only where they are allowed, and every number converts. Otherwise an error
comes out: at the first token from the left that breaks one of these rules, or at the end of the text if
there is no token at all or a parenthesis is still open there.
-/
theorem read_accepts_grammar (source : Text) (allowInput : Bool) :
    ((∃ e, read source allowInput = .ok e) ↔ WellFormed allowInput (scan source)) ∧
      (¬WellFormed allowInput (scan source) →
        ∃ error, read source allowInput = .error error ∧ FirstOffence allowInput source error) := by
  have hverdict : Verdict allowInput [] (scan source) (0 + source.length)
      (readTokens allowInput source .start 0 (scan source)) :=
    readTokens_verdict (tiled_scan source) atDepth_start
  rw [Nat.zero_add] at hverdict
  rw [wellFormed_iff]
  by_cases hempty : scan source = []
  · rw [read_of_scan_eq_nil hempty]
    exact ⟨⟨nofun, fun h => absurd hempty h.1⟩, fun _ => ⟨_, rfl, .nothing hempty⟩⟩
  · rw [read_of_scan_ne_nil hempty]
    generalize readTokens allowInput source .start 0 (scan source) = result at hverdict
    -- the verdict is one of three, and each settles both sides
    cases hverdict with
    | accepted clean closed =>
      have hwell : scan source ≠ [] ∧ Clean allowInput [] (scan source) ∧
          closes (scan source) = opens (scan source) := ⟨hempty, clean, closed⟩
      exact ⟨⟨fun _ => hwell, fun _ => ⟨_, rfl⟩⟩, fun hno => absurd hwell hno⟩
    | refused split clean offends =>
      have hno : ¬Clean allowInput [] (scan source) :=
        fun hclean => hclean _ _ _ split _ offends
      exact ⟨⟨nofun, fun h => absurd h.2.1 hno⟩, fun _ => ⟨_, rfl, .token split clean offends⟩⟩
    | unclosed clean opened =>
      exact ⟨⟨nofun, fun h => absurd h.2.2 (Nat.ne_of_lt opened)⟩,
        fun _ => ⟨_, rfl, .unclosed hempty clean opened⟩⟩

end Expr

end SqlPipeline
