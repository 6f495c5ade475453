import SqlPipeline.Proofs.Quoting

/-!
# Where the tokens of a text stand

`Token.request` asks for one token at a time. It starts at an offset, skips the blanks
there, and gives the token that follows or, behind the last one, the end of the text,
together with the offset for the next request. The first part shows that requests made
one after the other give the tokens of the scan and then the end, again and again.

The second part reads the text back. Between two tokens, in front of the first and
behind the last there are only blanks, and the bytes from the first to the last byte of
a token are the ones its kind and its text call for. The first bytes of a lexeme decide
its kind, and `Lexeme.Front` keeps what they were; a kind without them would not say
which quote a name had.
-/

namespace SqlPipeline

theorem drop_behind {t rest : Text} {b : UInt8} {offset : Nat} (h : t.drop offset = b :: rest)
    (extra : Nat) : t.drop (offset + 1 + extra) = rest.drop extra := by
  rw [← List.drop_drop, ← List.drop_drop, h, List.drop_one, List.tail_cons]

theorem length_behind {t rest : Text} {b : UInt8} {offset : Nat} (h : t.drop offset = b :: rest) :
    offset + 1 + rest.length = t.length := by
  have hlength := congrArg List.length h
  rw [List.length_drop, List.length_cons] at hlength
  omega

namespace Lexeme

/-! ## The bytes of a lexeme -/

/-- A quote that is opened and not closed: every quote behind it is one of a pair. -/
def Unclosed (quote : UInt8) (rest : Text) : Prop :=
  ∀ u v : Text, rest = doubled quote u ++ quote :: v → v.head? = some quote

/-- How a token of a kind and a text is written. An invalid one is a byte by itself or a quote that is
not closed. -/
def Written (kind : Token.Kind) (text bytes : Text) : Prop :=
  match kind with
  | .identifier | .number | .operator | .comma | .openParen | .closeParen | .input => bytes = text
  | .string => bytes = Literal.enclose Text.apostrophe Text.apostrophe text
  | .quotedIdentifier =>
    ∃ quote, (quote = Text.doubleQuote ∨ quote = Text.backtick) ∧
      bytes = Literal.enclose quote quote text
  | .invalid =>
    (∃ b, bytes = [b] ∧ text = [b]) ∨
      ∃ quote rest, (quote = Text.apostrophe ∨ quote = Text.doubleQuote ∨ quote = Text.backtick) ∧
        bytes = quote :: rest ∧ Unclosed quote rest

/-- The first byte of a part at the front, and as many bytes of the rest as the part has. -/
theorem cons_take_eq {b : UInt8} {t rest : Text} (h : t <+: b :: rest) (hne : t ≠ []) :
    b :: rest.take (t.length - 1) = t := by
  have hpos : 0 < t.length := List.length_pos_iff.mpr hne
  have hlength : t.length = t.length - 1 + 1 := by omega
  calc b :: rest.take (t.length - 1) = (b :: rest).take (t.length - 1 + 1) := rfl
    _ = (b :: rest).take t.length := by rw [← hlength]
    _ = t := (List.prefix_iff_eq_take.mp h).symm

/-- A number that starts at a byte has at least that byte. -/
theorem number_ne_nil {b : UInt8} {rest : Text} (h : startsNumber b rest) :
    number (b :: rest) ≠ [] := by
  have hstarts : Text.isDigit b = true ∨ b = 46 := by
    rw [startsNumber, Bool.or_eq_true, Bool.and_eq_true, beq_iff_eq] at h
    exact h.imp_right And.left
  rw [number]
  by_cases hb : Text.isDigit b = true
  · rw [List.takeWhile_cons_of_pos hb]
    exact List.cons_ne_nil _ _
  · obtain rfl : b = 46 := hstarts.resolve_left hb
    rw [List.takeWhile_cons_of_neg hb]
    exact List.cons_ne_nil _ _

/-- A quote is either closed, and then the lexeme is the quoted text, or it is not, and then the lexeme is
all there is. -/
theorem quoted_cases (kind : Token.Kind) (complaint : Text) (quote : UInt8) (rest : Text) :
    (∃ u n, quoted kind complaint quote rest = ⟨kind, u, n⟩ ∧
        quote :: rest.take n = Literal.enclose quote quote u) ∨
      (quoted kind complaint quote rest = ⟨.invalid, complaint, rest.length⟩ ∧
        Unclosed quote rest) := by
  cases hbody : quotedBody quote rest with
  | some body =>
    obtain ⟨u, n⟩ := body
    obtain ⟨rest', rfl, -, rfl⟩ := eq_doubled_of_quotedBody hbody
    refine Or.inl ⟨u, (doubled quote u).length + 1, ?_, ?_⟩
    · rw [quoted, hbody]
    · have hsplit : doubled quote u ++ quote :: rest' = (doubled quote u ++ [quote]) ++ rest' := by
        rw [List.append_assoc, List.singleton_append]
      have hlength : (doubled quote u).length + 1 = (doubled quote u ++ [quote]).length := by
        rw [List.length_append, List.length_singleton]
      rw [hsplit, hlength, List.take_left, enclose_eq]
  | none =>
    refine Or.inr ⟨?_, ?_⟩
    · rw [quoted, hbody]
    · intro u v hrest
      -- a body closed anywhere would have been found
      by_contra hv
      rw [hrest, quotedBody_doubled quote u hv] at hbody
      cases hbody

/-- **A lexeme is made of the bytes that its kind and its text call for.** -/
theorem front_written (b : UInt8) (rest : Text) :
    Written (front b rest).kind (front b rest).text (b :: rest.take (front b rest).extra) := by
  have hfront := front_cases b rest
  generalize front b rest = lexeme at hfront ⊢
  cases hfront with
  | openParen byte => exact rfl
  | closeParen byte => exact rfl
  | comma byte => exact rfl
  | placeholder starts => exact cons_take_eq starts (by decide)
  | string byte =>
    -- quoted bytes are the lexeme between its quotes, or run to the end unclosed
    rcases quoted_cases .string "unterminated string literal" b rest with
      ⟨u, n, heq, hbytes⟩ | ⟨heq, hunclosed⟩
    · rw [heq, hbytes, byte]
      exact rfl
    · rw [heq, List.take_length]
      exact Or.inr ⟨b, rest, Or.inl byte, rfl, hunclosed⟩
  | quotedIdentifier byte =>
    rcases quoted_cases .quotedIdentifier "unterminated quoted identifier" b rest with
      ⟨u, n, heq, hbytes⟩ | ⟨heq, hunclosed⟩
    · rw [heq]
      exact ⟨b, byte, hbytes⟩
    · rw [heq, List.take_length]
      exact Or.inr ⟨b, rest, Or.inr byte, rfl, hunclosed⟩
  | number starts => exact cons_take_eq (number_starts _) (number_ne_nil starts)
  | identifier =>
    exact cons_take_eq ((List.prefix_cons_inj b).mpr (List.takeWhile_prefix _)) (List.cons_ne_nil _ _)
  | operator =>
    exact cons_take_eq ((List.prefix_cons_inj b).mpr (List.takeWhile_prefix _)) (List.cons_ne_nil _ _)
  | invalid => exact Or.inl ⟨b, rfl, rfl⟩

end Lexeme

namespace Token

/-! ## One token at a time -/

/-- What a request gives: a token, or the end of the text, which has a place as well. -/
inductive Reply where
  | token (token : Token)
  | finished (pos stop : Nat)
  deriving Repr, DecidableEq

/-- Asks for the token at an offset or behind the blanks there; also gives the offset of the next
request. -/
def request (t : Text) (offset : Nat) : Reply × Nat :=
  let pos := offset + ((t.drop offset).takeWhile Text.isBlank).length
  match t.drop pos with
  | [] => (.finished pos pos, pos)
  | b :: rest =>
    let lexeme := Lexeme.front b rest
    let stop := pos + 1 + lexeme.extra
    (.token ⟨lexeme.kind, lexeme.text, pos, stop⟩, stop)

/-- What so many requests give, one after the other. -/
def replies (t : Text) : Nat → Nat → List Reply
  | 0, _ => []
  | count + 1, offset => (request t offset).1 :: replies t count (request t offset).2

variable {t rest : Text} {b : UInt8} {offset pos : Nat} {tokens : List Token}

theorem request_blank (h : t.drop offset = b :: rest) (hb : Text.isBlank b) :
    request t offset = request t (offset + 1) := by
  have hnext : t.drop (offset + 1) = rest := drop_behind h 0
  have hpos : offset + ((t.drop offset).takeWhile Text.isBlank).length =
      offset + 1 + ((t.drop (offset + 1)).takeWhile Text.isBlank).length := by
    rw [h, hnext, List.takeWhile_cons_of_pos hb, List.length_cons]
    omega
  rw [request, request, hpos]

theorem request_token (h : t.drop offset = b :: rest) (hb : ¬Text.isBlank b) :
    request t offset =
      (.token ⟨(Lexeme.front b rest).kind, (Lexeme.front b rest).text, offset,
        offset + 1 + (Lexeme.front b rest).extra⟩, offset + 1 + (Lexeme.front b rest).extra) := by
  have hpos : offset + ((t.drop offset).takeWhile Text.isBlank).length = offset := by
    rw [h, List.takeWhile_cons_of_neg hb, List.length_nil, Nat.add_zero]
  rw [request, hpos]
  simp only [h]

theorem request_finished (t : Text) :
    request t t.length = (.finished t.length t.length, t.length) := by
  have hpos : t.length + ((t.drop t.length).takeWhile Text.isBlank).length = t.length := by
    rw [List.drop_length, List.takeWhile_nil, List.length_nil, Nat.add_zero]
  rw [request, hpos]
  simp only [List.drop_length]

theorem replies_blank (h : t.drop offset = b :: rest) (hb : Text.isBlank b) (count : Nat) :
    replies t count offset = replies t count (offset + 1) := by
  cases count with
  | zero => rfl
  | succ count => rw [replies, replies, request_blank h hb]

/-- At the end of a text every further request gives the end again. -/
theorem replies_finished (t : Text) (count : Nat) :
    replies t count t.length = List.replicate count (.finished t.length t.length) := by
  induction count with
  | zero => rfl
  | succ count ih => rw [replies, request_finished, ih, List.replicate_succ]

/-- **Requests give the tokens of the scan, and then the end.** -/
theorem replies_scanFrom {whole : Text} (more : Nat) (hdrop : whole.drop pos = t)
    (hle : pos ≤ whole.length) :
    replies whole ((scanFrom pos t).length + more) pos =
      (scanFrom pos t).map .token ++
        List.replicate more (.finished whole.length whole.length) := by
  fun_induction scanFrom pos t with
  | case1 pos =>
    obtain rfl : pos = whole.length := Nat.le_antisymm hle (List.drop_eq_nil_iff.mp hdrop)
    rw [List.length_nil, Nat.zero_add, replies_finished]
    rfl
  | case2 pos b rest hb ih =>
    -- the scan passes one blank where a request passes all of them
    have hlength := length_behind hdrop
    rw [replies_blank hdrop hb]
    exact ih (drop_behind hdrop 0) (by omega)
  | case3 pos b rest hb lexeme stop ih =>
    have hstop : stop ≤ whole.length := by
      have hextra : lexeme.extra ≤ rest.length := Lexeme.front_extra_le b rest
      have hlength := length_behind hdrop
      omega
    rw [List.length_cons, Nat.add_right_comm, replies,
      request_token hdrop hb, List.map_cons, List.cons_append]
    exact congrArg (List.cons _) (ih (drop_behind hdrop lexeme.extra) hstop)

/-! ## Tokens and the gaps between them -/

/-- The stretches in front of, between and behind tokens, from one offset to another. -/
def gaps (first last : Nat) (tokens : List Token) : List (Nat × Nat) :=
  (first :: tokens.map Token.stop).zip (tokens.map Token.pos ++ [last])

theorem Tiled.length_le (h : Tiled pos t tokens) : tokens.length ≤ t.length := by
  induction h with
  | done => exact Nat.zero_le _
  | @next pos gap spelled rest token tokens _ nonempty _ _ _ ih =>
    have hspelled : 0 < spelled.length := List.length_pos_iff.mpr nonempty
    rw [List.length_cons, List.length_append, List.length_append]
    omega

/-- A token has a byte, and no token reaches beyond the text. -/
theorem Tiled.bounds (h : Tiled pos t tokens) {token : Token} (hmem : token ∈ tokens) :
    token.pos < token.stop ∧ token.stop ≤ pos + t.length := by
  induction h with
  | done => cases hmem
  | @next pos gap spelled rest first tokens _ nonempty pos_eq stop_eq _ ih =>
    have hspelled : 0 < spelled.length := List.length_pos_iff.mpr nonempty
    rw [List.length_append, List.length_append]
    rcases List.mem_cons.mp hmem with rfl | hmem
    · omega
    · obtain ⟨hlt, hle⟩ := ih hmem
      omega

/-- **Only blanks stand between tokens.** -/
theorem Tiled.blank_gaps {whole : Text} (h : Tiled pos t tokens) (hdrop : whole.drop pos = t)
    (hle : pos ≤ whole.length) :
    ∀ gap ∈ gaps pos whole.length tokens,
      gap.1 ≤ gap.2 ∧ ∀ b ∈ whole.extract gap.1 gap.2, Text.isBlank b := by
  induction h with
  | @done pos blanks blank =>
    -- without tokens there is one gap, from the offset to the end
    intro gap hgap
    obtain rfl : gap = (pos, whole.length) := List.mem_singleton.mp hgap
    refine ⟨hle, fun b hb => blank b ?_⟩
    rw [List.extract_eq_take_drop, hdrop] at hb
    exact List.mem_of_mem_take hb
  | @next pos blanks spelled rest token tokens blank _ pos_eq stop_eq _ ih =>
    have hrest : whole.drop token.stop = rest := by
      have hpast : (blanks ++ spelled ++ rest).drop (token.stop - pos) = rest :=
        drop_past pos_eq stop_eq
      have hstop : pos ≤ token.stop := by omega
      rw [← hpast, ← hdrop, List.drop_drop, Nat.add_sub_cancel' hstop]
    have hbound : token.stop ≤ whole.length := by
      have hlength := congrArg List.length hdrop
      rw [List.length_drop, List.length_append, List.length_append] at hlength
      omega
    intro gap hgap
    rcases List.mem_cons.mp hgap with rfl | hgap
    · refine ⟨by omega, fun b hb => blank b ?_⟩
      have hlength : token.pos - pos = blanks.length := by omega
      rwa [List.extract_eq_take_drop, hdrop, hlength, List.append_assoc, List.take_left] at hb
    · exact ih hrest hbound gap hgap

/-- Each token is written as the bytes between its offsets. -/
theorem written_of_mem_scanFrom {whole : Text} {token : Token} (h : token ∈ scanFrom pos t)
    (hdrop : whole.drop pos = t) :
    Lexeme.Written token.kind token.text (whole.extract token.pos token.stop) := by
  fun_induction scanFrom pos t with
  | case1 pos => cases h
  | case2 pos b rest hb ih => exact ih h (drop_behind hdrop 0)
  | case3 pos b rest hb lexeme stop ih =>
    rcases List.mem_cons.mp h with rfl | h
    · have hlength : stop - pos = lexeme.extra + 1 := by
        simp only [stop]
        omega
      rw [List.extract_eq_take_drop, hdrop, hlength, List.take_succ_cons]
      exact Lexeme.front_written b rest
    · exact ih h (drop_behind hdrop lexeme.extra)

/--
**The tokens tile the text.**

Requests made one after the other from the front of any text give the tokens of its scan, which are no more
than the text has bytes, and from then on nothing but the end, whose two offsets are the size of the text.
In front of the first token, between two tokens and behind the last one there are only blanks, and no token
starts before the one in front of it has ended. Each token has at least one byte, ends inside the text, and
the bytes between its offsets are its text as it stands or, for a string or a quoted name, its text with
the quotes doubled between two quotes.
-/
theorem scan_tiles (t : Text) :
    (∀ more, replies t ((scan t).length + more) 0 =
        (scan t).map .token ++ List.replicate more (.finished t.length t.length)) ∧
      (scan t).length ≤ t.length ∧
      (∀ gap ∈ gaps 0 t.length (scan t),
        gap.1 ≤ gap.2 ∧ ∀ b ∈ t.extract gap.1 gap.2, Text.isBlank b) ∧
      ∀ token ∈ scan t, token.pos < token.stop ∧ token.stop ≤ t.length ∧
        Lexeme.Written token.kind token.text (t.extract token.pos token.stop) := by
  have htiled : Tiled 0 t (scan t) := tiled_scan t
  refine ⟨fun more => replies_scanFrom more rfl (Nat.zero_le _), htiled.length_le,
    htiled.blank_gaps rfl (Nat.zero_le _), fun token hmem => ?_⟩
  obtain ⟨hlt, hle⟩ := htiled.bounds hmem
  rw [Nat.zero_add] at hle
  exact ⟨hlt, hle, written_of_mem_scanFrom hmem rfl⟩

/-- `"a""b" 1e+ 'x`: a doubled quote, a mark without an exponent, and a string that is not closed. -/
def cutShort : Text := [34, 97, 34, 34, 98, 34, 32, 49, 101, 43, 32, 39, 120]

/-- The number ends in front of its mark, and two requests behind the last token both give the end. -/
theorem scan_tiles_cutShort :
    cutShort.length = 13 ∧ (scan cutShort).length = 5 ∧
      (⟨.number, [49], 7, 8⟩ : Token) ∈ scan cutShort ∧ cutShort.extract 7 8 = [49] ∧
      (⟨.quotedIdentifier, [97, 34, 98], 0, 6⟩ : Token) ∈ scan cutShort ∧
      Lexeme.Written .quotedIdentifier [97, 34, 98] (cutShort.extract 0 6) ∧
      replies cutShort 7 0 = (scan cutShort).map .token ++ [.finished 13 13, .finished 13 13] := by
  obtain ⟨hreplies, -, -, hwritten⟩ := scan_tiles cutShort
  have hcount : (scan cutShort).length = 5 := by decide +kernel
  have hnumber : (⟨.number, [49], 7, 8⟩ : Token) ∈ scan cutShort := by
    have hat : (scan cutShort)[1]? = some ⟨.number, [49], 7, 8⟩ := by decide +kernel
    exact List.mem_of_getElem? hat
  have hname : (⟨.quotedIdentifier, [97, 34, 98], 0, 6⟩ : Token) ∈ scan cutShort := by
    have hat : (scan cutShort)[0]? = some ⟨.quotedIdentifier, [97, 34, 98], 0, 6⟩ := by decide +kernel
    exact List.mem_of_getElem? hat
  have hends := hreplies 2
  rw [hcount] at hends
  exact ⟨rfl, hcount, hnumber, (hwritten _ hnumber).2.2, hname, (hwritten _ hname).2.2, hends⟩

end Token

end SqlPipeline
