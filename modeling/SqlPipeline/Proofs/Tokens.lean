import Mathlib.Data.List.Basic
import SqlPipeline.Expr
import SqlPipeline.Token

/-!
# Tokens cover the text

Scanning loses nothing but blanks. `Token.Tiled` says what this means: a text is a
run of blanks, then the bytes of the first token, then what the other tokens cover,
and after the last token there are only blanks. The places of the tokens are the
offsets at which these parts begin and end. That no token reaches beyond the text
is a fact about single lexemes, and the scan only puts them together.
-/

namespace SqlPipeline

namespace Lexeme

/-! ## Quoted text -/

/-- A text with each quote written twice. -/
def doubled (quote : UInt8) (t : Text) : Text :=
  t.flatMap fun b => if b = quote then [b, b] else [b]

theorem doubled_cons_self (quote : UInt8) (t : Text) :
    doubled quote (quote :: t) = quote :: quote :: doubled quote t := by
  simp [doubled]

theorem doubled_cons_of_ne {quote b : UInt8} (h : b ≠ quote) (t : Text) :
    doubled quote (b :: t) = b :: doubled quote t := by
  simp [doubled, h]

/-- What is read after an opening quote is a text with its quotes doubled and a quote that no other one
follows. -/
theorem eq_doubled_of_quotedBody {quote : UInt8} {t u : Text} {n : Nat}
    (h : quotedBody quote t = some (u, n)) :
    ∃ rest, t = doubled quote u ++ quote :: rest ∧ rest.head? ≠ some quote ∧
      n = (doubled quote u).length + 1 := by
  fun_induction quotedBody quote t generalizing u n with
  | case1 => cases h
  | case2 =>
    cases h
    exact ⟨[], rfl, nofun, rfl⟩
  | case3 rest ih =>
    obtain ⟨⟨v, m⟩, hv, hp⟩ := Option.map_eq_some_iff.mp h
    cases hp
    obtain ⟨rest', rfl, hrest, rfl⟩ := ih hv
    -- a doubled quote stands for one, and the body goes on behind it
    rw [doubled_cons_self]
    exact ⟨rest', rfl, hrest, rfl⟩
  | case4 c rest hc =>
    cases h
    exact ⟨c :: rest, rfl, by simpa using hc, rfl⟩
  | case5 b rest hb ih =>
    obtain ⟨⟨v, m⟩, hv, hp⟩ := Option.map_eq_some_iff.mp h
    cases hp
    obtain ⟨rest', rfl, hrest, rfl⟩ := ih hv
    rw [doubled_cons_of_ne hb]
    exact ⟨rest', rfl, hrest, rfl⟩

/-- A text with its quotes doubled is read back up to the quote that closes it. -/
theorem quotedBody_doubled (quote : UInt8) (t : Text) {rest : Text} (h : rest.head? ≠ some quote) :
    quotedBody quote (doubled quote t ++ quote :: rest) = some (t, (doubled quote t).length + 1) := by
  induction t with
  | nil =>
    cases rest with
    | nil => simp [doubled, quotedBody]
    | cons c rest =>
      have hc : c ≠ quote := by simpa using h
      simp [doubled, quotedBody, hc]
  | cons b t ih =>
    -- only a quote is written twice
    by_cases hb : b = quote
    · subst hb
      rw [doubled_cons_self, List.cons_append, List.cons_append]
      unfold quotedBody
      simp [ih]
    · rw [doubled_cons_of_ne hb, List.cons_append]
      unfold quotedBody
      simp [hb, ih]

/-! ## Numbers -/

theorem sign_starts (t : Text) : sign t <+: t := by
  unfold sign
  split
  · split
    · exact List.prefix_append [_] _
    · exact List.nil_prefix
  · exact List.nil_prefix

theorem fraction_starts (t : Text) : fraction t <+: t := by
  unfold fraction
  split
  · split
    · exact (List.prefix_cons_inj _).mpr (List.takeWhile_prefix _)
    · exact List.nil_prefix
  · exact List.nil_prefix

/-- A part at the front of a text and a part at the front of what follows it. -/
theorem append_starts {front next t : Text} (h : front <+: t) (h' : next <+: t.drop front.length) :
    front ++ next <+: t := by
  obtain ⟨rest, rfl⟩ := h
  rw [List.drop_left] at h'
  exact (List.prefix_append_right_inj _).mpr h'

theorem exponent_starts (t : Text) : exponent t <+: t := by
  unfold exponent
  split
  · split
    · dsimp only
      split
      · exact List.nil_prefix
      · exact (List.prefix_cons_inj _).mpr
          (append_starts (sign_starts _) (List.takeWhile_prefix _))
    · exact List.nil_prefix
  · exact List.nil_prefix

theorem number_starts (t : Text) : number t <+: t := by
  have hwhole : t.takeWhile Text.isDigit <+: t := List.takeWhile_prefix _
  have hpart := append_starts hwhole (fraction_starts (t.drop (t.takeWhile Text.isDigit).length))
  refine append_starts hpart ?_
  rw [List.length_append, ← List.drop_drop]
  exact exponent_starts _

/-! ## The lexeme at the front -/

/-- What can stand at the front of a text that starts with byte `b`. -/
inductive Front (b : UInt8) (rest : Text) : Lexeme → Prop where
  | openParen (byte : b = 40) : Front b rest ⟨.openParen, [b], 0⟩
  | closeParen (byte : b = 41) : Front b rest ⟨.closeParen, [b], 0⟩
  | comma (byte : b = 44) : Front b rest ⟨.comma, [b], 0⟩
  | placeholder (starts : inputMark <+: b :: rest) : Front b rest (plain .input inputMark)
  | string (byte : b = Text.apostrophe) :
      Front b rest (quoted .string "unterminated string literal" b rest)
  | quotedIdentifier (byte : b = Text.doubleQuote ∨ b = Text.backtick) :
      Front b rest (quoted .quotedIdentifier "unterminated quoted identifier" b rest)
  | number (starts : startsNumber b rest) : Front b rest (plain .number (number (b :: rest)))
  | identifier : Front b rest (plain .identifier (b :: rest.takeWhile isNameByte))
  | operator : Front b rest (plain .operator (b :: rest.takeWhile isOperatorByte))
  | invalid : Front b rest ⟨.invalid, [b], 0⟩

theorem front_cases (b : UInt8) (rest : Text) : Front b rest (front b rest) := by
  rw [front]
  -- one test after the other, in the order in which the scanner makes them
  by_cases hopen : (b == 40) = true
  · rw [if_pos hopen]
    exact .openParen (eq_of_beq hopen)
  rw [if_neg hopen]
  by_cases hclose : (b == 41) = true
  · rw [if_pos hclose]
    exact .closeParen (eq_of_beq hclose)
  rw [if_neg hclose]
  by_cases hcomma : (b == 44) = true
  · rw [if_pos hcomma]
    exact .comma (eq_of_beq hcomma)
  rw [if_neg hcomma]
  by_cases hbrace : (b == 123) = true
  · rw [if_pos hbrace]
    by_cases hmark : inputMark.isPrefixOf (b :: rest) = true
    · rw [if_pos hmark]
      exact .placeholder (List.isPrefixOf_iff_prefix.mp hmark)
    · rw [if_neg hmark]
      exact .invalid
  rw [if_neg hbrace]
  by_cases hstring : (b == Text.apostrophe) = true
  · rw [if_pos hstring]
    exact .string (eq_of_beq hstring)
  rw [if_neg hstring]
  by_cases hquote : (b == Text.doubleQuote || b == Text.backtick) = true
  · rw [if_pos hquote]
    exact .quotedIdentifier (by simpa using hquote)
  rw [if_neg hquote]
  by_cases hnumber : startsNumber b rest = true
  · rw [if_pos hnumber]
    exact .number hnumber
  rw [if_neg hnumber]
  by_cases hname : isNameStart b = true
  · rw [if_pos hname]
    exact .identifier
  rw [if_neg hname]
  by_cases hoperator : isOperatorByte b = true
  · rw [if_pos hoperator]
    exact .operator
  · rw [if_neg hoperator]
    exact .invalid

theorem plain_extra_le {kind : Token.Kind} {b : UInt8} {t rest : Text} (h : t <+: b :: rest) :
    (plain kind t).extra ≤ rest.length := by
  have hle := h.length_le
  simp only [plain, List.length_cons] at hle ⊢
  omega

theorem quoted_extra_le (kind : Token.Kind) (complaint : Text) (quote : UInt8) (rest : Text) :
    (quoted kind complaint quote rest).extra ≤ rest.length := by
  unfold quoted
  split
  · rename_i u n hbody
    obtain ⟨rest', rfl, -, rfl⟩ := eq_doubled_of_quotedBody hbody
    simp only [List.length_append, List.length_cons]
    omega
  · exact Nat.le_refl _

theorem quoted_kind (kind : Token.Kind) (complaint : Text) (quote : UInt8) (rest : Text) :
    (quoted kind complaint quote rest).kind = kind ∨
      (quoted kind complaint quote rest).kind = .invalid := by
  unfold quoted
  split
  · exact Or.inl rfl
  · exact Or.inr rfl

/-- A lexeme has no more bytes than there are. -/
theorem front_extra_le (b : UInt8) (rest : Text) : (front b rest).extra ≤ rest.length := by
  have hfront := front_cases b rest
  generalize front b rest = lexeme at hfront ⊢
  cases hfront with
  | placeholder starts => exact plain_extra_le starts
  | string => exact quoted_extra_le _ _ _ _
  | quotedIdentifier => exact quoted_extra_le _ _ _ _
  | number => exact plain_extra_le (number_starts _)
  | identifier => exact plain_extra_le ((List.prefix_cons_inj b).mpr (List.takeWhile_prefix _))
  | operator => exact plain_extra_le ((List.prefix_cons_inj b).mpr (List.takeWhile_prefix _))
  | _ => exact Nat.zero_le _

/-- A parenthesis or a placeholder is spelled in one way. -/
theorem front_text (b : UInt8) (rest : Text) :
    ((front b rest).kind = .openParen → (front b rest).text = "(") ∧
      ((front b rest).kind = .closeParen → (front b rest).text = ")") ∧
      ((front b rest).kind = .input → (front b rest).text = inputMark) := by
  -- what starts with a quote is its own kind or unclosed, and never a bracket or the mark
  have hquoted : ∀ {lexeme : Lexeme} (kind : Token.Kind),
      lexeme.kind = kind ∨ lexeme.kind = .invalid →
      kind = .string ∨ kind = .quotedIdentifier →
        lexeme.kind ≠ .openParen ∧ lexeme.kind ≠ .closeParen ∧ lexeme.kind ≠ .input := by
    intro lexeme kind hkind hk
    rcases hkind with h | h <;> rcases hk with rfl | rfl <;> simp [h]
  have hfront := front_cases b rest
  generalize front b rest = lexeme at hfront ⊢
  cases hfront with
  | openParen byte =>
    subst byte
    exact ⟨fun _ => rfl, nofun, nofun⟩
  | closeParen byte =>
    subst byte
    exact ⟨nofun, fun _ => rfl, nofun⟩
  | placeholder starts => exact ⟨nofun, nofun, fun _ => rfl⟩
  | string =>
    obtain ⟨h₁, h₂, h₃⟩ := hquoted _ (quoted_kind .string _ b rest) (Or.inl rfl)
    exact ⟨fun h => absurd h h₁, fun h => absurd h h₂, fun h => absurd h h₃⟩
  | quotedIdentifier =>
    obtain ⟨h₁, h₂, h₃⟩ := hquoted _ (quoted_kind .quotedIdentifier _ b rest) (Or.inr rfl)
    exact ⟨fun h => absurd h h₁, fun h => absurd h h₂, fun h => absurd h h₃⟩
  | _ => exact ⟨nofun, nofun, nofun⟩

end Lexeme

/-! ## The scan -/

namespace Token

/-- The tokens cover the text from offset `pos` on, up to blanks. -/
inductive Tiled : Nat → Text → List Token → Prop where
  | done {pos : Nat} {blanks : Text} (blank : ∀ b ∈ blanks, Text.isBlank b) : Tiled pos blanks []
  /-- Blanks, then the bytes of the token, then the rest. -/
  | next {pos : Nat} {gap spelled rest : Text} {token : Token} {tokens : List Token}
      (blank : ∀ b ∈ gap, Text.isBlank b) (nonempty : spelled ≠ [])
      (pos_eq : token.pos = pos + gap.length) (stop_eq : token.stop = token.pos + spelled.length)
      (covered : Tiled token.stop rest tokens) : Tiled pos (gap ++ spelled ++ rest) (token :: tokens)

/-- What is left after the blanks and the bytes of a token. -/
theorem drop_past {last : Nat} {gap spelled rest : Text} {token : Token}
    (hpos : token.pos = last + gap.length) (hstop : token.stop = token.pos + spelled.length) :
    (gap ++ spelled ++ rest).drop (token.stop - last) = rest := by
  have hlen : token.stop - last = (gap ++ spelled).length := by
    rw [List.length_append]
    omega
  rw [hlen, List.drop_left]

theorem Tiled.blank {pos : Nat} {b : UInt8} {t : Text} {tokens : List Token}
    (h : Tiled (pos + 1) t tokens) (hb : Text.isBlank b) : Tiled pos (b :: t) tokens := by
  cases h with
  | done blank => exact .done (List.forall_mem_cons.mpr ⟨hb, blank⟩)
  | @next _ gap spelled rest token tokens blank nonempty pos_eq stop_eq covered =>
    rw [← List.cons_append, ← List.cons_append]
    refine .next (List.forall_mem_cons.mpr ⟨hb, blank⟩) nonempty ?_ stop_eq covered
    rw [pos_eq, List.length_cons]
    omega

/-- **The tokens of a scan cover the text.** -/
theorem tiled_scanFrom (pos : Nat) (t : Text) : Tiled pos t (scanFrom pos t) := by
  fun_induction scanFrom pos t with
  | case1 pos => exact .done nofun
  | case2 pos b rest hb ih => exact ih.blank hb
  | case3 pos b rest hb lexeme stop ih =>
    have hle : lexeme.extra ≤ rest.length := Lexeme.front_extra_le b rest
    have hsplit : b :: rest = [] ++ (b :: rest.take lexeme.extra) ++ rest.drop lexeme.extra := by
      rw [List.nil_append, List.cons_append, List.take_append_drop]
    rw [hsplit]
    refine .next nofun (List.cons_ne_nil _ _) rfl ?_ ih
    simp only [stop, List.length_cons, List.length_take, Nat.min_eq_left hle]
    omega

theorem tiled_scan (t : Text) : Tiled 0 t (scan t) := tiled_scanFrom 0 t

/-- Parentheses and placeholders have their own text. -/
def Spelled (token : Token) : Prop :=
  (token.kind = .openParen → token.text = "(") ∧ (token.kind = .closeParen → token.text = ")") ∧
    (token.kind = .input → token.text = Lexeme.inputMark)

theorem spelled_of_mem_scanFrom {pos : Nat} {t : Text} {token : Token}
    (h : token ∈ scanFrom pos t) : token.Spelled := by
  fun_induction scanFrom pos t with
  | case1 pos => cases h
  | case2 pos b rest hb ih => exact ih h
  | case3 pos b rest hb lexeme stop ih =>
    rcases List.mem_cons.mp h with rfl | h
    · exact Lexeme.front_text b rest
    · exact ih h

end Token

end SqlPipeline
