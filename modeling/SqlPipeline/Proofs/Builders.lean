import SqlPipeline.Proofs.Grammar
import SqlPipeline.Proofs.Pieces

/-!
# Built expressions read back

An expression that is put together by the builders and one that is read from text are
both rows of pieces in normal form, but they get there in different ways. The builders
join rows of pieces; the reader makes two pieces of each token, its blanks and itself.
Here they meet: the text of a built expression reads back as the expression.

`Expr.Spells` is what one part of a text contributes: in front of a given rest it is
read into certain pieces, and the walk goes on from a certain position. Parts follow
each other, so the argument about an expression is put together from the arguments
about its tokens. What may follow an expression is said by `Expr.Follows`; a name or a
number would swallow other bytes, and a parenthesis would make a name a call.
-/

namespace SqlPipeline

/-! ## Words of an expression -/

namespace Lexeme

/-- A letter or an underscore, and then letters, digits and underscores. -/
def isName : Text → Bool
  | [] => false
  | b :: w => isNameStart b && w.all isNameByte

/-- A run of operator bytes that is not empty. -/
def isOperator : Text → Bool
  | [] => false
  | b :: w => isOperatorByte b && w.all isOperatorByte

/-- What follows ends a word: there is nothing, or a space, a parenthesis or a comma. -/
def Ends (rest : Text) : Prop := ∀ b ∈ rest.head?, b = 32 ∨ b = 40 ∨ b = 41 ∨ b = 44

theorem Ends.not_starts {rest : Text} (h : Ends rest) {p : UInt8 → Bool}
    (hp : p 32 = false ∧ p 40 = false ∧ p 41 = false ∧ p 44 = false) :
    ∀ b ∈ rest.head?, p b = false := by
  intro b hb
  rcases h b hb with rfl | rfl | rfl | rfl
  · exact hp.1
  · exact hp.2.1
  · exact hp.2.2.1
  · exact hp.2.2.2

/-- The longest run of bytes stops where the next byte is of another class. -/
theorem takeWhile_append_eq {p : UInt8 → Bool} {w rest : Text} (hw : ∀ b ∈ w, p b)
    (hrest : ∀ b ∈ rest.head?, p b = false) : (w ++ rest).takeWhile p = w := by
  rw [List.takeWhile_append_of_pos hw]
  cases rest with
  | nil => simp
  | cons c rest => simp [hrest c rfl]

/-- The bytes at which neither a number, a name nor an operator starts. -/
def isMark (b : UInt8) : Bool :=
  b == 40 || b == 41 || b == 44 || b == 123 || b == Text.apostrophe || b == Text.doubleQuote ||
    b == Text.backtick

theorem front_of_not_isMark {b : UInt8} (h : isMark b = false) (rest : Text) :
    front b rest =
      if startsNumber b rest then plain .number (number (b :: rest))
      else if isNameStart b then plain .identifier (b :: rest.takeWhile isNameByte)
      else if isOperatorByte b then plain .operator (b :: rest.takeWhile isOperatorByte)
      else ⟨.invalid, [b], 0⟩ := by
  simp only [isMark, Bool.or_eq_false_iff] at h
  obtain ⟨⟨⟨⟨⟨⟨hopen, hclose⟩, hcomma⟩, hbrace⟩, hstring⟩, hquote⟩, hbacktick⟩ := h
  simp only [front, hopen, hclose, hcomma, hbrace, hstring, hquote, hbacktick, Bool.or_self,
    Bool.false_eq_true, if_false]

theorem isNameStart_class {b : UInt8} (h : isNameStart b) :
    isMark b = false ∧ Text.isDigit b = false ∧ b ≠ 46 ∧ Text.isBlank b = false := by
  refine ⟨?_, ?_, ?_, ?_⟩
  · grind [isMark, isNameStart, Text.isLetter, Text.isUpper, Text.isLower, Text.apostrophe,
      Text.doubleQuote, Text.backtick]
  · grind [isNameStart, Text.isLetter, Text.isUpper, Text.isLower, Text.isDigit]
  · rintro rfl
    cases h
  · grind [isNameStart, Text.isLetter, Text.isUpper, Text.isLower, Text.isBlank]

theorem front_name {b : UInt8} {w rest : Text} (h : isName (b :: w)) (hrest : Ends rest) :
    front b (w ++ rest) = ⟨.identifier, b :: w, w.length⟩ := by
  simp only [isName, Bool.and_eq_true, List.all_eq_true] at h
  obtain ⟨hb, hw⟩ := h
  obtain ⟨hmark, hdigit, hpoint, -⟩ := isNameStart_class hb
  have hnumber : startsNumber b (w ++ rest) = false := by simp [startsNumber, hdigit, hpoint]
  rw [front_of_not_isMark hmark, hnumber, if_neg Bool.false_ne_true, if_pos hb,
    takeWhile_append_eq hw (hrest.not_starts (by decide))]
  rfl

theorem isOperatorByte_class (b : UInt8) (h : isOperatorByte b) :
    isMark b = false ∧ isNameStart b = false ∧ Text.isDigit b = false ∧ Text.isBlank b = false := by
  have hall : [43, 45, 42, 47, 37, 60, 62, 61, 33, 124, 38, 94, 126, 58, 46, 59].all (fun c =>
      !isMark c && !isNameStart c && !Text.isDigit c && !Text.isBlank c) := by decide
  simpa [and_assoc] using List.all_eq_true.mp hall b (List.elem_iff.mp h)

theorem front_operator {b : UInt8} {w rest : Text} (h : isOperator (b :: w)) (hrest : Ends rest) :
    front b (w ++ rest) = ⟨.operator, b :: w, w.length⟩ := by
  simp only [isOperator, Bool.and_eq_true, List.all_eq_true] at h
  obtain ⟨hb, hw⟩ := h
  obtain ⟨hmark, hname, hdigit, -⟩ := isOperatorByte_class b hb
  -- a point starts a number only in front of a digit, and no digit follows here
  have hnext : ∀ c ∈ (w ++ rest).head?, Text.isDigit c = false := by
    cases w with
    | nil => exact hrest.not_starts (by decide)
    | cons c w =>
      rintro _ ⟨⟩
      exact (isOperatorByte_class c (hw c List.mem_cons_self)).2.2.1
  have hnumber : startsNumber b (w ++ rest) = false := by
    cases hhead : (w ++ rest).head? with
    | none => simp [startsNumber, hdigit, hhead]
    | some c => simp [startsNumber, hdigit, hhead, hnext c hhead]
  rw [front_of_not_isMark hmark, hnumber, hname, if_neg Bool.false_ne_true, if_neg Bool.false_ne_true,
    if_pos hb, takeWhile_append_eq hw (hrest.not_starts (by decide))]
  rfl

theorem front_digits {b : UInt8} {w rest : Text} (h : ∀ c ∈ b :: w, Text.isDigit c)
    (hrest : Ends rest) : front b (w ++ rest) = ⟨.number, b :: w, w.length⟩ := by
  have hb : Text.isDigit b := h b List.mem_cons_self
  have hmark : isMark b = false := by
    grind [isMark, Text.isDigit, Text.apostrophe, Text.doubleQuote, Text.backtick]
  have hnumber : startsNumber b (w ++ rest) = true := by simp [startsNumber, hb]
  have hwhole : (b :: w ++ rest).takeWhile Text.isDigit = b :: w :=
    takeWhile_append_eq h (hrest.not_starts (by decide))
  -- neither a point nor an exponent can follow, so the run of digits is the whole number
  have hpoint := hrest.not_starts (p := (· == 46)) (by decide)
  have hexponent := hrest.not_starts (p := fun c => c == 101 || c == 69) (by decide)
  have hfraction : fraction rest = [] := by
    cases rest with
    | nil => rfl
    | cons c rest => simp [fraction, hpoint c rfl]
  have hpower : exponent rest = [] := by
    cases rest with
    | nil => rfl
    | cons c rest => simp [exponent, hexponent c rfl]
  have hall : number (b :: w ++ rest) = b :: w := by
    simp only [number, hwhole, List.drop_left, hfraction, List.length_nil, List.drop_zero, hpower,
      List.append_nil]
  rw [front_of_not_isMark hmark, hnumber, if_pos rfl, ← List.cons_append, hall]
  rfl

theorem front_string (t : Text) {rest : Text} (hrest : Ends rest) :
    front Text.apostrophe (doubled Text.apostrophe t ++ Text.apostrophe :: rest) =
      ⟨.string, t, (doubled Text.apostrophe t).length + 1⟩ := by
  have hquote : rest.head? ≠ some Text.apostrophe := by
    intro hsome
    exact absurd (hrest _ hsome) (by decide)
  have hstring : ∀ u, front Text.apostrophe u =
    quoted .string "unterminated string literal" Text.apostrophe u := fun _ => rfl
  rw [hstring, quoted, quotedBody_doubled _ _ hquote]

/-- Only the byte of a parenthesis opens one. -/
theorem eq_of_front_openParen {b : UInt8} {rest : Text} (h : (front b rest).kind = .openParen) :
    b = 40 := by
  have hfront := front_cases b rest
  generalize front b rest = lexeme at hfront h
  cases hfront with
  | openParen byte => exact byte
  | string => rcases quoted_kind .string _ b rest with hk | hk <;> rw [hk] at h <;> cases h
  | quotedIdentifier =>
    rcases quoted_kind .quotedIdentifier _ b rest with hk | hk <;> rw [hk] at h <;> cases h
  | _ => cases h

end Lexeme

namespace Text

theorem isDigit_ofNat {n : Nat} (h : n < 10) : isDigit (UInt8.ofNat (48 + n)) := by
  have hn : (UInt8.ofNat (48 + n)).toNat = 48 + n := by
    rw [UInt8.toNat_ofNat']
    omega
  simp only [isDigit, Bool.and_eq_true, decide_eq_true_eq, UInt8.le_iff_toNat_le, hn,
    UInt8.reduceToNat]
  omega

theorem digitValue_ofNat {n : Nat} (h : n < 10) : digitValue (UInt8.ofNat (48 + n)) = n := by
  rw [digitValue, UInt8.toNat_ofNat']
  omega

theorem ofNat_ne_nil (n : Nat) : ofNat n ≠ [] := by
  rw [ofNat]
  split <;> simp

theorem isDigit_of_mem_ofNat (n : Nat) : ∀ b ∈ ofNat n, isDigit b := by
  fun_induction ofNat n with
  | case1 n hn => simpa using isDigit_ofNat hn
  | case2 n hn ih =>
    intro b hb
    rcases List.mem_append.mp hb with hb | hb
    · exact ih b hb
    · rw [List.mem_singleton.mp hb]
      exact isDigit_ofNat (Nat.mod_lt _ (by decide))

/-- The digits of a number stand for it. -/
theorem toNat_ofNat (n : Nat) : toNat (ofNat n) = n := by
  fun_induction ofNat n with
  | case1 n hn =>
    rw [toNat, List.foldl_cons, List.foldl_nil, digitValue_ofNat hn]
    omega
  | case2 n hn ih =>
    have hlast : digitValue (UInt8.ofNat (48 + n % 10)) = n % 10 :=
      digitValue_ofNat (Nat.mod_lt _ (by decide))
    rw [toNat] at ih
    rw [toNat, List.foldl_append, ih, List.foldl_cons, List.foldl_nil, hlast]
    omega

end Text

open Token

namespace Expr

/-- Keywords are written in letters. -/
theorem isName_of_keyword {op : Text} (h : Text.toUpper op ∈ keywords) : Lexeme.isName op := by
  -- looked up once for all keywords; the operator itself may be in any case
  have hletters : ∀ keyword ∈ keywords, keyword ≠ [] ∧ keyword.all Text.isUpper := by decide
  obtain ⟨hne, hupper⟩ := hletters _ h
  have hletter : ∀ b ∈ op, Text.isLetter b := by
    intro b hb
    have hb := List.all_eq_true.mp hupper _ (List.mem_map_of_mem hb)
    by_cases hlower : Text.isLower b
    · simp [Text.isLetter, hlower]
    · rw [if_neg hlower] at hb
      simp [Text.isLetter, hb]
  cases op with
  | nil => exact absurd rfl hne
  | cons b w =>
    have hb := hletter b List.mem_cons_self
    have hw : ∀ c ∈ w, Lexeme.isNameByte c := by
      intro c hc
      simp [Lexeme.isNameByte, Lexeme.isNameStart, hletter c (List.mem_cons_of_mem _ hc)]
    simpa [Lexeme.isName, Lexeme.isNameStart, hb] using hw

/-- A keyword is neither a constant nor the name of a group, unless it is `CAST`. -/
theorem keyword_apart {op : Text} (h : Text.toUpper op ∈ keywords) (hcast : Text.toUpper op ≠ "CAST") :
    Text.toUpper op ∉ constantWords ∧ Text.toUpper op ∉ groupWords := by
  have hall : ∀ keyword ∈ keywords, keyword ≠ "CAST" →
      keyword ∉ constantWords ∧ keyword ∉ groupWords := by decide
  exact hall _ h hcast

/-! ## Parts of a text -/

/-- So many parentheses are open, and no name after them belongs to a type or a field. -/
def Position.nested (depth : Nat) : Position :=
  ⟨.opened .plain, List.replicate depth (.opened .plain), .plain⟩

/-- The text from an offset on is read into normal pieces. -/
def readFrom (allowInput : Bool) (depth pos : Nat) (t : Text) : Except SyntaxError (List Piece) :=
  (readTokens allowInput t (.nested depth) pos (scanFrom pos t)).map fun pieces =>
    pieces.foldr Piece.glue []

/-- In front of the rest, the text of the pieces is read into these pieces. The walk comes in at one depth
and goes on at another. -/
def Spells (allowInput : Bool) (rest : Text) (depth : Nat) (pieces : List Piece) (depth' : Nat) : Prop :=
  ∀ pos, readFrom allowInput depth pos (pieces.flatMap Piece.display ++ rest) =
    (readFrom allowInput depth' (pos + (pieces.flatMap Piece.display).length) rest).map fun others =>
      pieces.foldr Piece.glue others

variable {allowInput : Bool} {rest : Text} {depth depth' depth'' : Nat} {pieces pieces' : List Piece}

theorem Spells.nil : Spells allowInput rest depth [] depth := by
  intro pos
  cases h : readFrom allowInput depth pos rest <;> simp [h, Except.map]

/-- Parts follow each other. -/
theorem Spells.append
    (h : Spells allowInput (pieces'.flatMap Piece.display ++ rest) depth pieces depth')
    (h' : Spells allowInput rest depth' pieces' depth'') :
    Spells allowInput rest depth (pieces ++ pieces') depth'' := by
  intro pos
  rw [List.flatMap_append, List.append_assoc, h pos, h' _, List.length_append, Nat.add_assoc]
  cases readFrom allowInput depth''
      (pos + ((pieces.flatMap Piece.display).length + (pieces'.flatMap Piece.display).length)) rest with
  | error e => rfl
  | ok others => exact congrArg Except.ok List.foldr_append.symm

theorem spells_ofPieces :
    Spells allowInput rest depth (ofPieces pieces).pieces depth' ↔
      Spells allowInput rest depth pieces depth' := by
  have hdisplay : (ofPieces pieces).pieces.flatMap Piece.display = pieces.flatMap Piece.display :=
    display_ofPieces pieces
  simp only [Spells, hdisplay, foldr_glue_ofPieces]

/-- Two texts side by side are one. -/
theorem Spells.join {t u : Text}
    (h : Spells allowInput rest depth (.text t :: .text u :: pieces) depth') :
    Spells allowInput rest depth (.text (t ++ u) :: pieces) depth' := by
  intro pos
  have hpos := h pos
  simp only [List.flatMap_cons, Piece.display, List.foldr_cons, List.append_assoc] at hpos
  simpa only [List.flatMap_cons, Piece.display, List.foldr_cons, Piece.glue_text_append,
    List.append_assoc] using hpos

/-- A token that starts right here. -/
theorem spells_token {b : UInt8} {w text : Text} {kind : Token.Kind} {piece : Piece}
    (hdisplay : piece.display = b :: w) (hblank : Text.isBlank b = false)
    (hfront : Lexeme.front b (w ++ rest) = ⟨kind, text, w.length⟩)
    (hread : ∀ pos stop, readToken allowInput (.nested depth) ⟨kind, text, pos, stop⟩
      (opensParen (scanFrom stop rest)) = .ok (.nested depth', piece)) :
    Spells allowInput rest depth [piece] depth' := by
  intro pos
  have hstop : pos + 1 + w.length = pos + (b :: w).length := by
    rw [List.length_cons]
    omega
  have hdrop : (b :: (w ++ rest)).drop (pos + (b :: w).length - pos) = rest := by
    rw [Nat.add_sub_cancel_left, ← List.cons_append, List.drop_left]
  rw [List.flatMap_cons, List.flatMap_nil, List.append_nil, hdisplay, List.cons_append, readFrom,
    readFrom, scanFrom, if_neg (by simp [hblank])]
  simp only [hfront, List.drop_left, hstop]
  rw [readTokens, hread]
  -- the gap before the token is empty and vanishes when it is glued
  simp only [hdrop, Nat.sub_self, List.take_zero]
  cases readTokens allowInput rest (.nested depth') (pos + (b :: w).length)
      (scanFrom (pos + (b :: w).length) rest) with
  | error e => rfl
  | ok others => rfl

/-- A byte before the blanks of the first token is one more blank. -/
theorem readTokens_blank {b : UInt8} {source : Text} {p : Position} {last : Nat} {token : Token}
    {tokens : List Token} (hpos : last < token.pos) (hstop : token.pos ≤ token.stop) :
    (readTokens allowInput (b :: source) p last (token :: tokens)).map
        (fun pieces => pieces.foldr Piece.glue []) =
      (readTokens allowInput source p (last + 1) (token :: tokens)).map
        (fun pieces => Piece.glue (.text [b]) (pieces.foldr Piece.glue [])) := by
  -- both the gap before the token and the rest after it are counted from one byte further on
  have hgap : token.pos - last = token.pos - (last + 1) + 1 := by omega
  have hskip : token.stop - last = token.stop - (last + 1) + 1 := by omega
  rw [readTokens, readTokens, hgap, hskip, List.take_succ_cons, List.drop_succ_cons]
  cases readToken allowInput p token (opensParen tokens) with
  | error fault => rfl
  | ok step =>
    dsimp only
    cases readTokens allowInput (source.drop (token.stop - (last + 1))) step.1 token.stop tokens with
    | error e => rfl
    | ok pieces =>
      exact congrArg Except.ok
        (Piece.glue_text_append [b] (source.take (token.pos - (last + 1))) _)

/-- A text that starts with a byte that is no blank. -/
def Solid (t : Text) : Prop := ∃ c w, t = c :: w ∧ Text.isBlank c = false

theorem Solid.append {t : Text} (h : Solid t) (u : Text) : Solid (t ++ u) := by
  obtain ⟨c, w, rfl, hc⟩ := h
  exact ⟨c, w ++ u, rfl, hc⟩

theorem solid_of_isName {name : Text} (h : Lexeme.isName name) : Solid name := by
  cases name with
  | nil => cases h
  | cons b w => exact ⟨b, w, rfl, (Lexeme.isNameStart_class (Bool.and_eq_true_iff.mp h).1).2.2.2⟩

theorem solid_ofNat (n : Nat) : Solid (Text.ofNat n) := by
  have hdigits := Text.isDigit_of_mem_ofNat n
  cases hspelled : Text.ofNat n with
  | nil => exact absurd hspelled (Text.ofNat_ne_nil n)
  | cons b w =>
    have hb : Text.isDigit b := hdigits b (by simp [hspelled])
    exact ⟨b, w, rfl, by grind [Text.isDigit, Text.isBlank]⟩

/-- A space in front of a token. -/
theorem spells_space (h : Solid rest) : Spells allowInput rest depth [.text " "] depth := by
  obtain ⟨c, t, rfl, hc⟩ := h
  intro pos
  have hscan : scanFrom pos (32 :: c :: t) = scanFrom (pos + 1) (c :: t) := by
    rw [scanFrom, if_pos (by decide)]
  -- a space in front of nothing would end the text and not be glued to a token
  have htoken : ∃ token tokens, scanFrom (pos + 1) (c :: t) = token :: tokens ∧
      pos < token.pos ∧ token.pos ≤ token.stop := by
    rw [scanFrom, if_neg (by simp [hc])]
    refine ⟨_, _, rfl, Nat.lt_succ_self pos, ?_⟩
    dsimp only
    omega
  obtain ⟨token, tokens, htokens, hpos, hstop⟩ := htoken
  change readFrom allowInput depth pos (32 :: c :: t) =
    (readFrom allowInput depth (pos + 1) (c :: t)).map (Piece.glue (.text [32]))
  rw [readFrom, readFrom, hscan, htokens, readTokens_blank hpos hstop]
  cases readTokens allowInput (c :: t) (.nested depth) (pos + 1) (token :: tokens) <;> rfl

/-! ## Tokens of an expression -/

/-- What may follow an expression: a name or a number would swallow other bytes, and a parenthesis would
make a call of a name. -/
inductive Follows : Text → Prop where
  | nothing : Follows []
  | close {t : Text} : Follows (41 :: t)
  | comma {t : Text} : Follows (44 :: t)
  | operator {c : UInt8} {t : Text} (solid : Text.isBlank c = false) (apart : c ≠ 40) :
      Follows (32 :: c :: t)

theorem Follows.ends (h : Follows rest) : Lexeme.Ends rest := by
  cases h with
  | nothing => exact nofun
  | close => rintro _ ⟨⟩; decide
  | comma => rintro _ ⟨⟩; decide
  | operator solid apart => rintro _ ⟨⟩; decide

theorem opensParen_scanFrom {c : UInt8} (hc : Text.isBlank c = false) (pos : Nat) (t : Text) :
    opensParen (scanFrom pos (c :: t)) = ((Lexeme.front c t).kind == .openParen) := by
  rw [scanFrom, if_neg (by simp [hc])]
  rfl

theorem opensParen_eq_false {c : UInt8} (hc : Text.isBlank c = false) (h : c ≠ 40) (pos : Nat)
    (t : Text) :
    opensParen (scanFrom pos (c :: t)) = false := by
  rw [opensParen_scanFrom hc, beq_eq_false_iff_ne]
  exact fun hopen => h (Lexeme.eq_of_front_openParen hopen)

/-- No name is called by what follows an expression. -/
theorem Follows.opensParen (h : Follows rest) (pos : Nat) : opensParen (scanFrom pos rest) = false := by
  cases h with
  | nothing => rw [scanFrom]; rfl
  | close => exact opensParen_eq_false (by decide) (by decide) _ _
  | comma => exact opensParen_eq_false (by decide) (by decide) _ _
  | operator solid apart =>
    rw [scanFrom, if_pos (by decide)]
    exact opensParen_eq_false solid apart _ _

theorem spells_open : Spells allowInput rest depth [.text "("] (depth + 1) :=
  spells_token (b := 40) (w := []) rfl (by decide) rfl fun _ _ => rfl

theorem spells_close : Spells allowInput rest (depth + 1) [.text ")"] depth :=
  spells_token (b := 41) (w := []) rfl (by decide) rfl fun _ _ => rfl

theorem spells_comma : Spells allowInput rest depth [.text ","] depth :=
  spells_token (b := 44) (w := []) rfl (by decide) rfl fun _ _ => rfl

/-- A name, once it is known what it means here. -/
theorem spells_name {name : Text} {piece : Piece} (hname : Lexeme.isName name) (hrest : Lexeme.Ends rest)
    (hdisplay : piece.display = name)
    (hread : ∀ pos, readName (.nested depth) name (opensParen (scanFrom pos rest)) =
      (.nested depth, piece)) :
    Spells allowInput rest depth [piece] depth := by
  obtain ⟨b, w, rfl, hblank⟩ := solid_of_isName hname
  exact spells_token hdisplay hblank (Lexeme.front_name hname hrest)
    fun pos stop => congrArg Except.ok (hread stop)

/-- A name that opens no group of its own kind leaves the walk where it is. -/
theorem readName_nested {name : Text} {beforeParen : Bool}
    (h : beforeParen = true → Text.toUpper name ∉ groupWords) :
    readName (.nested depth) name beforeParen = (.nested depth, namePiece name beforeParen) := by
  have hnext : (if beforeParen && (wordConstant? name).isNone then GroupKind.ofCall name else .plain) =
      GroupKind.plain := by
    split
    · rename_i hcall
      exact ofCall_eq_plain (h (Bool.and_eq_true_iff.mp hcall).1)
    · rfl
  change (Position.mk (.opened .plain) _ _, _) = _
  rw [hnext]
  rfl

theorem spells_string (t : Text) (h : Lexeme.Ends rest) :
    Spells allowInput rest depth [.const (.string t)] depth := by
  have hfront : Lexeme.front Text.apostrophe
      (Lexeme.doubled Text.apostrophe t ++ [Text.apostrophe] ++ rest) =
      ⟨.string, t, (Lexeme.doubled Text.apostrophe t ++ [Text.apostrophe]).length⟩ := by
    rw [List.append_assoc, List.length_append]
    exact Lexeme.front_string t h
  exact spells_token rfl (by decide) hfront fun _ _ => rfl

theorem spells_int {n : Nat} (hn : n < Binary64.exp2 63) (h : Lexeme.Ends rest) :
    Spells allowInput rest depth [.const (.int n)] depth := by
  have hdigits := Text.isDigit_of_mem_ofNat n
  have hconstant : numberConstant? (Text.ofNat n) = some (.int n) := by
    have hint : (Text.ofNat n).all Text.isDigit ∧ Text.toNat (Text.ofNat n) < Binary64.exp2 63 := by
      rw [Text.toNat_ofNat]
      exact ⟨List.all_eq_true.mpr hdigits, hn⟩
    rw [numberConstant?, if_pos hint, Text.toNat_ofNat]
  have hdisplay : (Piece.const (.int n)).display = Text.ofNat n := rfl
  obtain ⟨b, w, hspelled, hblank⟩ := solid_ofNat n
  rw [hspelled] at hdigits hconstant hdisplay
  refine spells_token hdisplay hblank (Lexeme.front_digits hdigits h) fun pos stop => ?_
  rw [readToken, hconstant]
  rfl

/-! ## Built expressions -/

/-- The operator of a binary expression: a run of operator bytes, or a keyword that is no cast. -/
def IsInfix (op : Text) : Prop :=
  Lexeme.isOperator op ∨ (Text.toUpper op ∈ keywords ∧ Text.toUpper op ≠ "CAST")

/-- Expressions that the builders make of names, constants and operators. -/
inductive Built : Expr → Prop where
  | var {name : Text} (lexeme : Lexeme.isName name) (notConstant : Text.toUpper name ∉ constantWords)
      (notKeyword : Text.toUpper name ∉ keywords) : Built (var name)
  | int {n : Int} (nonneg : 0 ≤ n) (fits : n < Binary64.exp2 63) : Built (lit (.int n))
  | string (value : Text) : Built (lit (.string value))
  | bool (value : Bool) : Built (lit (.bool value))
  | null : Built (lit .null)
  | call {name : Text} {args : List Expr} (lexeme : Lexeme.isName name)
      (notConstant : Text.toUpper name ∉ constantWords) (notGroup : Text.toUpper name ∉ groupWords)
      (built : ∀ arg ∈ args, Built arg) : Built (call name args)
  | binary {left right : Expr} {op : Text} (builtLeft : Built left) (joins : IsInfix op)
      (builtRight : Built right) : Built (binary left op right)
  | paren {inner : Expr} (built : Built inner) : Built (paren inner)

theorem IsInfix.starts {op : Text} (h : IsInfix op) :
    ∃ c w, op = c :: w ∧ Text.isBlank c = false ∧ c ≠ 40 := by
  rcases h with h | ⟨h, -⟩
  · cases op with
    | nil => cases h
    | cons b w =>
      obtain ⟨hmark, -, -, hblank⟩ := Lexeme.isOperatorByte_class b (Bool.and_eq_true_iff.mp h).1
      refine ⟨b, w, rfl, hblank, ?_⟩
      rintro rfl
      cases hmark
  · have hname := isName_of_keyword h
    obtain ⟨b, w, rfl, hb⟩ := solid_of_isName hname
    refine ⟨b, w, rfl, hb, ?_⟩
    rintro rfl
    cases hname

theorem spells_op {op : Text} (h : IsInfix op) (hrest : Lexeme.Ends rest) :
    Spells allowInput rest depth [.text op] depth := by
  obtain ⟨c, w, rfl, hc, -⟩ := h.starts
  rcases h with h | ⟨hkeyword, hcast⟩
  · exact spells_token rfl hc (Lexeme.front_operator h hrest) fun _ _ => rfl
  · obtain ⟨hconstant, hgroup⟩ := keyword_apart hkeyword hcast
    refine spells_name (isName_of_keyword hkeyword) hrest rfl fun pos => ?_
    rw [readName_nested fun _ => hgroup, namePiece, wordConstant?_eq_none_iff.mpr hconstant]
    simp [hkeyword]

theorem spells_between {op : Text} (h : IsInfix op) (hrest : Solid rest) :
    Spells allowInput rest depth [.text (" " ++ op ++ " ")] depth := by
  obtain ⟨c, w, hop, hc, -⟩ := h.starts
  have hspace : Spells allowInput rest depth [.text " "] depth := spells_space hrest
  have hword : Spells allowInput rest depth ([.text op] ++ [.text " "]) depth := by
    refine Spells.append (spells_op h ?_) hspace
    rintro _ ⟨⟩
    decide
  have hboth : Spells allowInput rest depth ([.text " "] ++ [.text op, .text " "]) depth :=
    Spells.append (spells_space ⟨c, w ++ " " ++ rest, by simp [hop, Piece.display], hc⟩) hword
  exact hboth.join.join

theorem Built.solid {e : Expr} (h : Built e) : Solid e.display := by
  -- what an expression starts with is what its first part starts with
  induction h with
  | @var name lexeme _ _ =>
    have hdisplay : (Expr.var name).display = name := List.append_nil _
    rw [hdisplay]
    exact solid_of_isName lexeme
  | int nonneg fits =>
    obtain ⟨n, rfl⟩ := Int.eq_ofNat_of_zero_le nonneg
    exact (solid_ofNat n).append []
  | string value => exact ⟨_, _, rfl, by decide⟩
  | bool value => cases value <;> exact ⟨_, _, rfl, by decide⟩
  | null => exact ⟨_, _, rfl, by decide⟩
  | call lexeme _ _ _ _ =>
    rw [Expr.call, display_ofPieces, List.cons_append, List.flatMap_cons]
    exact ((solid_of_isName lexeme).append _).append _
  | binary _ _ _ ihleft _ =>
    rw [Expr.binary, display_ofPieces, List.flatMap_append]
    exact ihleft.append _
  | paren built ih =>
    rw [Expr.paren, display_ofPieces]
    exact ⟨_, _, rfl, by decide⟩

/-- The arguments of a call, if each of them is read as it was built. -/
theorem spells_args {args : List Expr} (hsolid : ∀ arg ∈ args, Solid arg.display)
    (hargs : ∀ arg ∈ args, ∀ {rest}, Follows rest → Spells allowInput rest depth arg.pieces depth)
    (hrest : Follows rest) :
    Spells allowInput rest depth ([.text ", "].intercalate (args.map Expr.pieces)) depth := by
  induction args with
  | nil => exact Spells.nil
  | cons arg args ih =>
    obtain ⟨harg, hmore⟩ := List.forall_mem_cons.mp hargs
    replace ih := ih (List.forall_mem_cons.mp hsolid).2 hmore
    cases args with
    | nil =>
      rw [List.map_singleton, List.intercalate_singleton]
      exact harg hrest
    | cons next args =>
      have hnext : Solid next.display := hsolid next (by simp)
      rw [List.map_cons, List.map_cons, List.intercalate_cons_cons, List.append_assoc]
      rw [List.map_cons] at ih
      generalize htail :
        [Piece.text ", "].intercalate (next.pieces :: args.map Expr.pieces) = tail at ih ⊢
      have htailSolid : Solid (tail.flatMap Piece.display) := by
        subst htail
        cases args with
        | nil =>
          rw [List.map_nil, List.intercalate_singleton]
          exact hnext
        | cons other args =>
          rw [List.map_cons, List.intercalate_cons_cons, List.flatMap_append, List.flatMap_append]
          exact (hnext.append _).append _
      -- the comma is a token and the space a gap, but together they are one text
      have hcomma : Spells allowInput (tail.flatMap Piece.display ++ rest) depth [.text ", "] depth :=
        (Spells.append spells_comma (spells_space (htailSolid.append rest))).join
      exact Spells.append (harg .comma) (Spells.append hcomma ih)

/-- **The text of a built expression is read into its pieces**, wherever an expression may stand. -/
theorem Built.spells {e : Expr} (h : Built e) :
    ∀ {rest : Text} {depth : Nat}, Follows rest → Spells allowInput rest depth e.pieces depth := by
  induction h with
  | @var name lexeme notConstant notKeyword =>
    intro rest depth hrest
    refine spells_name lexeme hrest.ends rfl fun pos => ?_
    have hcalled : false = true → Text.toUpper name ∉ groupWords := nofun
    rw [hrest.opensParen, readName_nested hcalled, namePiece, wordConstant?_eq_none_iff.mpr notConstant]
    simp [notKeyword]
  | int nonneg fits =>
    intro rest depth hrest
    obtain ⟨n, rfl⟩ := Int.eq_ofNat_of_zero_le nonneg
    exact spells_int (Int.ofNat_lt.mp fits) hrest.ends
  | string value => exact fun hrest => spells_string value hrest.ends
  | bool value =>
    intro rest depth hrest
    cases value <;>
      exact spells_name (by decide) hrest.ends rfl fun pos => readName_nested fun _ => by decide
  | null =>
    intro rest depth hrest
    exact spells_name (by decide) hrest.ends rfl fun pos => readName_nested fun _ => by decide
  | @call name args lexeme notConstant notGroup built ih =>
    intro rest depth hrest
    rw [Expr.call, spells_ofPieces, List.cons_append]
    have hargs : Spells allowInput rest (depth + 1)
        ([.text ", "].intercalate (args.map Expr.pieces) ++ [.text ")"]) depth :=
      Spells.append
        (spells_args (fun arg harg => (built arg harg).solid) (fun arg harg => ih arg harg) .close)
        spells_close
    -- the name is no column, whatever it is, because its parenthesis follows
    have hname : ∀ t, Spells allowInput t depth ([.text name] ++ [.text "("]) (depth + 1) := by
      intro t
      refine Spells.append (spells_name lexeme ?_ rfl fun pos => ?_) spells_open
      · rintro _ ⟨⟩
        decide
      · have hparen : opensParen (scanFrom pos ([Piece.text "("].flatMap Piece.display ++ t)) = true :=
          opensParen_scanFrom (by decide) pos t
        rw [hparen, readName_nested fun _ => notGroup, namePiece, wordConstant?_eq_none_iff.mpr notConstant]
        rfl
    exact Spells.append (hname _).join hargs
  | @binary left right op builtLeft joins builtRight ihleft ihright =>
    intro rest depth hrest
    rw [Expr.binary, spells_ofPieces]
    have hright : Spells allowInput rest depth ([.text (" " ++ op ++ " ")] ++ right.pieces) depth :=
      Spells.append (spells_between joins (builtRight.solid.append rest)) (ihright hrest)
    -- the left side ends where the operator begins
    refine Spells.append (ihleft ?_) hright
    obtain ⟨c, w, rfl, hc, hparen⟩ := joins.starts
    exact .operator hc hparen
  | @paren inner built ih =>
    intro rest depth hrest
    rw [Expr.paren, spells_ofPieces, List.cons_append]
    have hinner : Spells allowInput rest (depth + 1) (inner.pieces ++ [.text ")"]) depth :=
      Spells.append (ih .close) spells_close
    have hopen : ∀ t, Spells allowInput t depth [.text "("] (depth + 1) := fun _ => spells_open
    exact Spells.append (hopen _) hinner

theorem Built.ofPieces_pieces {e : Expr} (h : Built e) : ofPieces e.pieces = e := by
  have hnormal : ∀ pieces, ofPieces (ofPieces pieces).pieces = ofPieces pieces :=
    fun pieces => congrArg Expr.mk (foldr_glue_ofPieces pieces [])
  cases h with
  | call => exact hnormal _
  | binary => exact hnormal _
  | paren => exact hnormal _
  | _ => rfl

/--
**Builders and reader agree.**

An expression that is built of columns, constants, calls, binary operators and parentheses, nested to any
depth, has a text that reads back as the same expression, whether or not placeholders are allowed. The
names have to be names as the scan knows them and must not mean something else as words; an operator is a
run of operator bytes or a keyword.
-/
theorem read_display (allowInput : Bool) {e : Expr} (h : Built e) :
    read e.display allowInput = .ok e := by
  have hscan : scan e.display ≠ [] := by
    obtain ⟨c, w, hdisplay, hc⟩ := h.solid
    rw [hdisplay, scan, scanFrom, if_neg (by simp [hc])]
    exact List.cons_ne_nil _ _
  have hend : ∀ pos, readFrom allowInput 0 pos [] = .ok [] := by
    intro pos
    rw [readFrom, scanFrom]
    rfl
  have hspells : Spells allowInput [] 0 e.pieces 0 := h.spells .nothing
  have hread := hspells 0
  -- nothing follows, so what is spelled is all that is read
  rw [hend, List.append_nil] at hread
  change (readTokens allowInput e.display .start 0 (scan e.display)).map _ =
    .ok (e.pieces.foldr Piece.glue []) at hread
  rw [read_of_scan_ne_nil hscan]
  cases hresult : readTokens allowInput e.display .start 0 (scan e.display) with
  | error error =>
    rw [hresult] at hread
    cases hread
  | ok pieces =>
    rw [hresult] at hread
    have hpieces : ofPieces pieces = ofPieces e.pieces := congrArg Expr.mk (Except.ok.inj hread)
    exact congrArg Except.ok (hpieces.trans h.ofPieces_pieces)

/-- A call with a keyword before a parenthesis, a quote inside a string and a call without arguments. -/
def nestedCall : Expr :=
  call "f" [binary (var "a") "not" (paren (lit (.string "it's"))), call "Left" [], lit (.int 7)]

theorem read_display_nestedCall :
    Built nestedCall ∧ nestedCall.display = "f(a not ('it''s'), Left(), 7)" ∧
      read nestedCall.display false = .ok nestedCall := by
  have hbuilt : Built nestedCall := by
    refine .call (by decide) (by decide) (by decide) ?_
    intro arg harg
    simp only [List.mem_cons, List.not_mem_nil, or_false] at harg
    rcases harg with rfl | rfl | rfl
    · exact .binary (.var (by decide) (by decide) (by decide)) (Or.inr (by decide)) (.paren (.string _))
    · exact .call (by decide) (by decide) (by decide) nofun
    · exact .int (by decide) (by decide)
  exact ⟨hbuilt, by decide +kernel, read_display false hbuilt⟩

end Expr

end SqlPipeline
