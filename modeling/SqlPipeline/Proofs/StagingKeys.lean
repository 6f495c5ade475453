import SqlPipeline.Proofs.Builders
import SqlPipeline.Proofs.Limits
import SqlPipeline.Proofs.Staging

/-!
# Specifications with the same key

The key of a summary is a row of texts with bars between them: the source, the name of the
probabilities, the columns, each probability, and one letter for the kind of tables. The columns
have commas between them. Nothing in it is quoted. A name that holds a bar or a comma therefore
looks like several, and a column that is called `0.5` like a probability.

`Quantile.pieces` is what is left of a specification between the bars. Two specifications of one
source get the same tables exactly if they have the same pieces and the same kind of tables. Where
the names can be told apart from the separators this means that they ask for the same summary.
-/

namespace SqlPipeline

/-! ## Splitting and joining -/

namespace Text

theorem splitOn_eq (separator : UInt8) (t : Text) : splitOn separator t = List.splitOn separator t := by
  induction t with
  | nil => rfl
  | cons b t ih =>
    rw [splitOn, ih, List.splitOn_eq_splitOnP, List.splitOn_eq_splitOnP,
      List.splitOnP_cons_eq_if_modifyHead]
    split_ifs with hb
    · rfl
    · cases hsplit : List.splitOnP (· == separator) t with
      | nil => exact absurd hsplit (List.splitOnP_ne_nil _ t)
      | cons piece pieces => rfl

/-- A separator divides the pieces in front of it from those behind it. -/
theorem splitOn_append_cons (separator : UInt8) (t u : Text) :
    splitOn separator (t ++ separator :: u) = splitOn separator t ++ splitOn separator u := by
  simp only [splitOn_eq, List.splitOn_eq_splitOnP]
  exact List.splitOnP_append_cons t u (beq_self_eq_true separator)

/-- Splitting loses nothing. -/
theorem splitOn_inj (separator : UInt8) {t u : Text} :
    splitOn separator t = splitOn separator u ↔ t = u := by
  refine ⟨fun h => ?_, fun h => h ▸ rfl⟩
  rw [splitOn_eq, splitOn_eq] at h
  calc t = [separator].intercalate (List.splitOn separator t) :=
        (List.intercalate_splitOn separator).symm
    _ = [separator].intercalate (List.splitOn separator u) := by rw [h]
    _ = u := List.intercalate_splitOn separator

theorem splitOn_join {separator : UInt8} {items : List Text} (hne : items ≠ [])
    (h : ∀ t ∈ items, separator ∉ t) : splitOn separator (join [separator] items) = items := by
  rw [splitOn_eq]
  exact List.splitOn_intercalate separator h hne

theorem mem_join {separator : Text} {items : List Text} {b : UInt8} (h : b ∈ join separator items) :
    b ∈ separator ∨ ∃ t ∈ items, b ∈ t := by
  cases items with
  | nil => cases h
  | cons first rest =>
    rw [join_cons, List.mem_append, List.mem_flatMap] at h
    rcases h with hfirst | ⟨t, ht, hb⟩
    · exact Or.inr ⟨first, List.mem_cons_self, hfirst⟩
    · -- every later item has a separator in front of it
      rcases List.mem_append.mp hb with hs | hb
      · exact Or.inl hs
      · exact Or.inr ⟨t, List.mem_cons_of_mem first ht, hb⟩

end Text

/-! ## The text of a number -/

/-- The text holds neither a comma nor a bar. -/
def Text.Plain (t : Text) : Prop := 44 ∉ t ∧ 124 ∉ t

instance (t : Text) : Decidable t.Plain := inferInstanceAs (Decidable (_ ∧ _))

namespace Text.Plain

variable {t u : Text}

theorem append (ht : t.Plain) (hu : u.Plain) : Text.Plain (t ++ u) := by
  constructor
  · rw [List.mem_append, not_or]
    exact ⟨ht.1, hu.1⟩
  · rw [List.mem_append, not_or]
    exact ⟨ht.2, hu.2⟩

theorem subset (hu : u.Plain) (h : ∀ b ∈ t, b ∈ u) : t.Plain :=
  ⟨fun hb => hu.1 (h _ hb), fun hb => hu.2 (h _ hb)⟩

theorem cons {b : UInt8} (hb : b ≠ 44 ∧ b ≠ 124) (ht : t.Plain) : Text.Plain (b :: t) :=
  ⟨List.mem_cons.not.mpr (not_or.mpr ⟨hb.1.symm, ht.1⟩),
    List.mem_cons.not.mpr (not_or.mpr ⟨hb.2.symm, ht.2⟩)⟩

theorem ofNat (n : Nat) : (Text.ofNat n).Plain :=
  ⟨fun h => absurd (Text.isDigit_of_mem_ofNat n _ h) (by decide),
    fun h => absurd (Text.isDigit_of_mem_ofNat n _ h) (by decide)⟩

end Text.Plain

namespace Binary64

theorem plain_exponentText (x : Int) : (exponentText x).Plain := by
  unfold exponentText
  refine .cons (by split <;> decide) ?_
  split
  · exact .cons (by decide) (.ofNat _)
  · exact .ofNat _

theorem plain_pointed {digits : Text} (h : digits.Plain) (whole : Nat) : (pointed digits whole).Plain := by
  unfold pointed
  refine (h.subset fun b hb => List.mem_of_mem_take hb).append (.cons (by decide) ?_)
  split
  · exact ⟨by decide, by decide⟩
  · exact h.subset fun b hb => List.mem_of_mem_drop hb

theorem plain_layout (d : Decimal) : (layout d).Plain := by
  have hdigits : (Text.ofNat d.coefficient).Plain := .ofNat _
  have hzeros : ∀ n, Text.Plain (List.replicate n 48) := fun n =>
    ⟨fun h => absurd (List.eq_of_mem_replicate h) (by decide),
      fun h => absurd (List.eq_of_mem_replicate h) (by decide)⟩
  simp only [layout]
  split
  · split
    · exact ((show Text.Plain "0." from ⟨by decide, by decide⟩).append (hzeros _)).append hdigits
    · exact plain_pointed hdigits _
  · refine .append (.append (hdigits.subset fun b hb => List.mem_of_mem_take hb) ?_)
      (.cons (by decide) (plain_exponentText _))
    split
    · exact ⟨by decide, by decide⟩
    · exact .cons (by decide) (hdigits.subset fun b hb => List.mem_of_mem_drop hb)

/-- No number is written with a comma or a bar. -/
theorem plain_toText (p : Binary64) : p.toText.Plain := by
  cases p with
  | nan => exact ⟨by decide, by decide⟩
  | infinity negative => cases negative <;> exact ⟨by decide, by decide⟩
  | finite negative mantissa power =>
    rw [toText]
    refine .append ?_ ?_
    · split <;> exact ⟨by decide, by decide⟩
    · split
      · exact ⟨by decide, by decide⟩
      · exact plain_layout _

end Binary64

/-! ## Keys -/

namespace Quantile

variable {source : Tree} {a b : QuantileSpec}

/-- What stands between the bars of a key, behind the source and in front of the kind of tables. -/
def pieces (spec : QuantileSpec) : List Text :=
  Text.splitOn 124 spec.probsName ++
    (Text.splitOn 124 (Text.join "," spec.columns) ++ spec.probs.map Binary64.toText)

/-- The two specifications ask for the same summary in the same kind of tables. Probabilities are compared
as they are written. -/
structure SameSummary (a b : QuantileSpec) : Prop where
  columns : a.columns = b.columns
  probsName : a.probsName = b.probsName
  probs : a.probs.map Binary64.toText = b.probs.map Binary64.toText
  temporary : a.temporary = b.temporary

/-- The names of the two specifications can be told from the separators. No column holds a comma or a bar.
The name of the probabilities holds no bar either, unless no column of one specification is called like a
probability of the other. -/
structure Legible (a b : QuantileSpec) : Prop where
  left : ∀ name ∈ a.columns, name.Plain
  right : ∀ name ∈ b.columns, name.Plain
  bars : (124 ∉ a.probsName ∧ 124 ∉ b.probsName) ∨
    (∀ name ∈ a.columns, name ∉ b.probs.map Binary64.toText) ∧
      ∀ name ∈ b.columns, name ∉ a.probs.map Binary64.toText

/-- The letter for the kind of tables. -/
def kindLetter (temporary : Bool) : Text := if temporary then [116] else [112]

theorem splitOn_probabilities (front : Text) (probs : List Binary64) (rest : Text) :
    Text.splitOn 124 (front ++ (probs.flatMap probabilityKey ++ 124 :: rest)) =
      Text.splitOn 124 front ++ (probs.map Binary64.toText ++ Text.splitOn 124 rest) := by
  induction probs generalizing front with
  | nil => exact Text.splitOn_append_cons 124 front rest
  | cons p probs ih =>
    have hp : Text.splitOn 124 p.toText = [p.toText] := Text.splitOn_of_not_mem p.plain_toText.2
    have hkey : (p :: probs).flatMap probabilityKey ++ 124 :: rest =
        124 :: (p.toText ++ (probs.flatMap probabilityKey ++ 124 :: rest)) := by
      rw [List.flatMap_cons, List.append_assoc]
      rfl
    rw [hkey, Text.splitOn_append_cons, ih, hp]
    rfl

/-- A key is the source, a bar and a text whose pieces are those of the specification and the kind of
tables. -/
theorem stagingKey_eq (source : Tree) (spec : QuantileSpec) :
    ∃ rest, stagingKey source spec = source.format ++ 124 :: rest ∧
      Text.splitOn 124 rest = pieces spec ++ [kindLetter spec.temporary] := by
  have hkind : Text.ofString (if spec.temporary then "|t" else "|p") =
      124 :: kindLetter spec.temporary := by
    cases spec.temporary <;> rfl
  have hletter : Text.splitOn 124 (kindLetter spec.temporary) = [kindLetter spec.temporary] := by
    cases spec.temporary <;> rfl
  refine ⟨spec.probsName ++ 124 :: (Text.join "," spec.columns ++
    (spec.probs.flatMap probabilityKey ++ 124 :: kindLetter spec.temporary)), ?_, ?_⟩
  · rw [stagingKey, hkind]
    simp only [List.append_assoc]
    rfl
  · rw [Text.splitOn_append_cons, splitOn_probabilities, hletter, pieces]
    simp only [List.append_assoc]

/-- **When two specifications of a source have the same key.** -/
theorem stagingKey_eq_iff :
    stagingKey source a = stagingKey source b ↔ a.temporary = b.temporary ∧ pieces a = pieces b := by
  obtain ⟨resta, hkeya, hsplita⟩ := stagingKey_eq source a
  obtain ⟨restb, hkeyb, hsplitb⟩ := stagingKey_eq source b
  have hletter : kindLetter a.temporary = kindLetter b.temporary ↔ a.temporary = b.temporary := by
    cases a.temporary <;> cases b.temporary <;> decide
  rw [hkeya, hkeyb, List.append_right_inj, List.cons_inj_right, ← Text.splitOn_inj 124, hsplita,
    hsplitb]
  constructor
  · intro h
    obtain ⟨hpieces, hlast⟩ := List.append_inj' h rfl
    exact ⟨hletter.mp (List.cons.inj hlast).1, hpieces⟩
  · rintro ⟨htemporary, hpieces⟩
    rw [htemporary, hpieces]

/-! ## Names that can be told from the separators -/

/-- Columns without commas and bars are one piece, which lists them. -/
theorem splitOn_columns {columns : List Text} (hne : columns ≠ []) (h : ∀ name ∈ columns, name.Plain) :
    Text.splitOn 124 (Text.join "," columns) = [Text.join "," columns] ∧
      Text.splitOn 44 (Text.join "," columns) = columns := by
  refine ⟨Text.splitOn_of_not_mem fun hbar => ?_, Text.splitOn_join hne fun name hn => (h name hn).1⟩
  rcases Text.mem_join hbar with hcomma | ⟨name, hn, hb⟩
  · exact absurd hcomma (by decide)
  · exact (h name hn).2 hb

/-- The piece of the columns is no probability, if no column is called like it. -/
theorem columns_not_mem {columns : List Text} {probs : List Binary64} (hne : columns ≠ [])
    (h : ∀ name ∈ columns, name ∉ probs.map Binary64.toText) :
    Text.join "," columns ∉ probs.map Binary64.toText := by
  intro hmem
  match columns, hne with
  | [name], _ => exact h name List.mem_cons_self (by simpa [Text.join] using hmem)
  | name :: name' :: rest, _ =>
    obtain ⟨p, -, hp⟩ := List.mem_map.mp hmem
    refine p.plain_toText.1 ?_
    rw [hp, Text.join, List.intercalate_cons_cons, List.append_assoc]
    exact List.mem_append_right _ (List.mem_append_left _ List.mem_cons_self)

/-- A row of texts is cut in one way at an item that does not come back behind it. -/
theorem cut_unique {front front' back back' : List Text} {t t' : Text} (ht : t ∉ back')
    (ht' : t' ∉ back) (h : front ++ t :: back = front' ++ t' :: back') :
    front = front' ∧ t = t' ∧ back = back' := by
  -- a later cut on either side would put its own part among what follows the other
  rcases List.append_eq_append_iff.mp h with ⟨between, hfront, hback⟩ | ⟨between, hfront, hback⟩
  · cases between with
    | nil =>
      obtain ⟨rfl, rfl⟩ := List.cons.inj hback
      exact ⟨by simpa using hfront.symm, rfl, rfl⟩
    | cons u between =>
      obtain ⟨rfl, rfl⟩ := List.cons.inj hback
      exact absurd (List.mem_append_right _ List.mem_cons_self) ht'
  · cases between with
    | nil =>
      obtain ⟨rfl, rfl⟩ := List.cons.inj hback
      exact ⟨by simpa using hfront, rfl, rfl⟩
    | cons u between =>
      obtain ⟨rfl, rfl⟩ := List.cons.inj hback
      exact absurd (List.mem_append_right _ List.mem_cons_self) ht

theorem SameSummary.stagingKey (h : SameSummary a b) (source : Tree) :
    stagingKey source a = stagingKey source b := by
  refine stagingKey_eq_iff.mpr ⟨h.temporary, ?_⟩
  rw [pieces, pieces, h.probsName, h.columns, h.probs]

/-- **Legible specifications with the same key are the same.** -/
theorem Legible.stagingKey_eq_iff (h : Legible a b) (ha : a.columns ≠ []) (hb : b.columns ≠ []) :
    stagingKey source a = stagingKey source b ↔ SameSummary a b := by
  refine ⟨fun hkey => ?_, fun hs => hs.stagingKey source⟩
  obtain ⟨htemporary, hpieces⟩ := Quantile.stagingKey_eq_iff.mp hkey
  obtain ⟨hpiecea, hcolumnsa⟩ := splitOn_columns ha h.left
  obtain ⟨hpieceb, hcolumnsb⟩ := splitOn_columns hb h.right
  rw [pieces, pieces, hpiecea, hpieceb, List.singleton_append, List.singleton_append] at hpieces
  -- the piece of the columns is where the key is cut, and legible columns occur in one piece
  have hparts : Text.splitOn 124 a.probsName = Text.splitOn 124 b.probsName ∧
      Text.join "," a.columns = Text.join "," b.columns ∧
      a.probs.map Binary64.toText = b.probs.map Binary64.toText := by
    rcases h.bars with ⟨hbara, hbarb⟩ | ⟨hlefts, hrights⟩
    · rw [Text.splitOn_of_not_mem hbara, Text.splitOn_of_not_mem hbarb] at hpieces ⊢
      obtain ⟨hname, hrest⟩ := List.cons.inj hpieces
      obtain ⟨hcolumns, hprobs⟩ := List.cons.inj hrest
      exact ⟨by rw [hname], hcolumns, hprobs⟩
    · exact cut_unique (columns_not_mem ha hlefts) (columns_not_mem hb hrights) hpieces
  obtain ⟨hname, hcolumns, hprobs⟩ := hparts
  refine ⟨?_, (Text.splitOn_inj 124).mp hname, hprobs, htemporary⟩
  rw [← hcolumnsa, hcolumns, hcolumnsb]

theorem resolve_columns_ne_nil {digest : Text → Text} (hs : source.Built) (spec : QuantileSpec) :
    (resolve digest source spec).columns ≠ [] := by
  change (if spec.columns.isEmpty then source.schema else spec.columns) ≠ []
  split_ifs with hempty
  · exact hs.valid.schema_ne_nil
  · exact fun hnil => hempty (List.isEmpty_iff.mpr hnil)

theorem exists_delegation {digest : Text → Text} {tag : Text} {node : Tree}
    (hnode : Pipeline.quantile digest tag source a = .ok node) : ∃ work, node.delegation? = some work := by
  obtain ⟨-, -, -, -, -, -, -, rfl⟩ := Pipeline.quantile_ok_iff.mp hnode
  exact ⟨_, rfl⟩

/-- The tables of two summaries have the same names exactly if the digest of their keys is the same. -/
theorem tables_eq_iff {digest : Text → Text} {tag tag' : Text} {node node' : Tree}
    (ha : a.incoming = [] ∧ a.outgoing = []) (hb : b.incoming = [] ∧ b.outgoing = [])
    (hnode : Pipeline.quantile digest tag source a = .ok node)
    (hnode' : Pipeline.quantile digest tag' source b = .ok node') :
    ∃ work work', node.delegation? = some work ∧ node'.delegation? = some work' ∧
      (work.incoming = work'.incoming ↔
        digest (stagingKey source (resolve digest source a)) =
          digest (stagingKey source (resolve digest source b))) ∧
      (work.outgoing = work'.outgoing ↔ work.incoming = work'.incoming) := by
  obtain ⟨work, hwork⟩ := exists_delegation hnode
  obtain ⟨work', hwork'⟩ := exists_delegation hnode'
  -- both tables are named after the same key, so they are shared together or not at all
  have hmade : work.Summarizes digest (stagingKey source (resolve digest source a)) :=
    ⟨tag, source, a, node, work, ha.1, ha.2, hnode, hwork, ⟨_, rfl⟩, rfl⟩
  have hmade' : work'.Summarizes digest (stagingKey source (resolve digest source b)) :=
    ⟨tag', source, b, node', work', hb.1, hb.2, hnode', hwork', ⟨_, rfl⟩, rfl⟩
  refine ⟨work, work', hwork, hwork', ?_, ?_⟩
  · rw [hmade.tables.1, hmade'.tables.1, incomingOf_eq_iff]
  · rw [hmade.tables.1, hmade'.tables.1, hmade.tables.2, hmade'.tables.2, incomingOf_eq_iff,
      outgoingOf_eq_iff]

/--
**Which specifications share their tables.**

Take two summaries of one source that were given no names for their tables, and let the digest keep their
keys apart. They get the same incoming table exactly if their specifications have the same kind of tables
and the same pieces, and they get the same outgoing table exactly then as well. So specifications that ask
for the same summary always share their tables. The other way round this holds if the specifications are
legible.
-/
theorem quantile_tables_shared {digest : Text → Text} {tag tag' : Text} {node node' : Tree}
    (hs : source.Built) (ha : a.incoming = [] ∧ a.outgoing = []) (hb : b.incoming = [] ∧ b.outgoing = [])
    (hnode : Pipeline.quantile digest tag source a = .ok node)
    (hnode' : Pipeline.quantile digest tag' source b = .ok node')
    (hd : digest (stagingKey source (resolve digest source a)) =
        digest (stagingKey source (resolve digest source b)) →
      stagingKey source (resolve digest source a) = stagingKey source (resolve digest source b)) :
    let full := resolve digest source a
    let full' := resolve digest source b
    ∃ work work', node.delegation? = some work ∧ node'.delegation? = some work' ∧
      (work.incoming = work'.incoming ↔
        full.temporary = full'.temporary ∧ pieces full = pieces full') ∧
      (work.outgoing = work'.outgoing ↔ work.incoming = work'.incoming) ∧
      (SameSummary full full' → work.incoming = work'.incoming) ∧
      (Legible full full' → (work.incoming = work'.incoming ↔ SameSummary full full')) := by
  intro full full'
  obtain ⟨work, work', hwork, hwork', hdigest, hout⟩ := tables_eq_iff ha hb hnode hnode'
  -- the digest tells the two keys apart if they differ
  have hin : work.incoming = work'.incoming ↔ stagingKey source full = stagingKey source full' :=
    hdigest.trans ⟨hd, congrArg digest⟩
  refine ⟨work, work', hwork, hwork', hin.trans stagingKey_eq_iff, hout,
    fun hsame => hin.mpr (hsame.stagingKey source), fun hlegible => hin.trans ?_⟩
  exact hlegible.stagingKey_eq_iff (resolve_columns_ne_nil hs a) (resolve_columns_ne_nil hs b)

/-! ## Names that are and are not told apart -/

/-- The least values of the columns, asked for so many times, under names that are made. -/
def zerosSpec (probsName : Text) (columns : List Text) (count : Nat) : QuantileSpec :=
  ⟨columns, List.replicate count (.ofNat 0), probsName, true, [], []⟩

theorem requireProbabilities_zeros (count : Nat) :
    requireProbabilities (List.replicate count (.ofNat 0)) = .ok () := by
  have hzero : (!(Binary64.ofNat 0).isFinite || (Binary64.ofNat 0).lt (.ofNat 0) ||
      (Binary64.ofNat 1).lt (.ofNat 0)) = false := by decide +kernel
  induction count with
  | zero => rfl
  | succ count ih =>
    rw [List.replicate_succ, requireProbabilities, hzero, if_neg Bool.false_ne_true]
    exact ih

theorem quantile_zeros {probsName : Text} {columns : List Text} (count : Nat)
    (hne : columns.isEmpty = false)
    (hknown : Pipeline.requireColumns .quantile source.schema columns = .ok ())
    (hunique : Pipeline.requireUnique .quantileColumns columns = .ok ())
    (hnames : requireNames probsName columns = .ok ()) (hnamed : Named (probsName :: columns)) :
    Pipeline.quantile Digest.hex [113] source (zerosSpec probsName columns (count + 1)) =
      .ok (node Digest.hex [113] source (zerosSpec probsName columns (count + 1))) := by
  have hcolumns : (resolve Digest.hex source (zerosSpec probsName columns (count + 1))).columns =
      columns := by
    simp only [resolve, zerosSpec, hne]
    rfl
  refine Pipeline.quantile_ok_iff.mpr ?_
  simp only [hcolumns]
  refine ⟨hknown, hunique, hnamed.nonempty probsName List.mem_cons_self, hnames, List.cons_ne_nil _ _,
    requireProbabilities_zeros (count + 1), ?_, trivial⟩
  exact ⟨List.cons_ne_nil _ _, List.cons_ne_nil _ _, incomingOf_ne_outgoingOf, List.cons_ne_nil _ _,
    Pipeline.requireColumns_eq_ok.mp hknown, hnamed.sublist (List.sublist_cons_self _ _), hnamed⟩

/-- `m(x, y)`. -/
def twoColumns : Tree := .table ⟨"m", ["x", "y"], none⟩

theorem built_twoColumns : twoColumns.Built :=
  .table (show Pipeline.table "m" ["x", "y"] none = .ok twoColumns from rfl)

/-- The least `x` of `m` under two names for its probability. One of them holds a bar, but no column is
called `0.0`. -/
theorem quantile_tables_shared_barredName :
    ∃ node node' work work',
      Pipeline.quantile Digest.hex [113] twoColumns (zerosSpec "p" ["x"] 1) = .ok node ∧
      Pipeline.quantile Digest.hex [113] twoColumns (zerosSpec "p|x" ["x"] 1) = .ok node' ∧
      node.delegation? = some work ∧ node'.delegation? = some work' ∧
      work.incoming ≠ work'.incoming ∧ work.outgoing ≠ work'.outgoing := by
  have hnode : Pipeline.quantile Digest.hex [113] twoColumns (zerosSpec "p" ["x"] 1) = .ok _ :=
    quantile_zeros 0 rfl rfl rfl rfl ⟨by decide, by decide⟩
  have hnode' : Pipeline.quantile Digest.hex [113] twoColumns (zerosSpec "p|x" ["x"] 1) = .ok _ :=
    quantile_zeros 0 rfl rfl rfl rfl ⟨by decide, by decide⟩
  have hhex : (Digest.hex (stagingKey twoColumns (resolve Digest.hex twoColumns (zerosSpec "p" ["x"] 1))) ==
      Digest.hex (stagingKey twoColumns (resolve Digest.hex twoColumns (zerosSpec "p|x" ["x"] 1)))) =
        false := by cbv
  have hx : ∀ name ∈ [Text.ofString "x"],
      name ∉ (List.replicate 1 (Binary64.ofNat 0)).map Binary64.toText := by decide
  have hplain : ∀ name ∈ [Text.ofString "x"], name.Plain := by decide
  obtain ⟨work, work', hwork, hwork', -, hout, -, hlegible⟩ :=
    quantile_tables_shared built_twoColumns ⟨rfl, rfl⟩ ⟨rfl, rfl⟩ hnode hnode'
      fun he => absurd he (ne_of_beq_false hhex)
  have hin : work.incoming ≠ work'.incoming := fun he =>
    absurd ((hlegible ⟨hplain, hplain, .inr ⟨hx, hx⟩⟩).mp he).probsName (by decide)
  exact ⟨_, _, work, work', hnode, hnode', hwork, hwork', hin, fun he => hin (hout.mp he)⟩

/-- Both specifications are accepted, and their summaries work in the same two tables. -/
def ShareTables (digest : Text → Text) (source : Tree) (a b : QuantileSpec) : Prop :=
  ∃ tag node node' work work',
    Pipeline.quantile digest tag source a = .ok node ∧
    Pipeline.quantile digest tag source b = .ok node' ∧
    node.delegation? = some work ∧ node'.delegation? = some work' ∧
    work.incoming = work'.incoming ∧ work.outgoing = work'.outgoing

theorem ShareTables.of_stagingKey {digest : Text → Text} {tag : Text} {node node' : Tree}
    (ha : a.incoming = [] ∧ a.outgoing = []) (hb : b.incoming = [] ∧ b.outgoing = [])
    (hnode : Pipeline.quantile digest tag source a = .ok node)
    (hnode' : Pipeline.quantile digest tag source b = .ok node')
    (hkey : stagingKey source (resolve digest source a) = stagingKey source (resolve digest source b)) :
    ShareTables digest source a b := by
  obtain ⟨work, work', hwork, hwork', hdigest, hout⟩ := tables_eq_iff ha hb hnode hnode'
  have hin : work.incoming = work'.incoming := hdigest.mpr (congrArg digest hkey)
  exact ⟨tag, node, node', work, work', hnode, hnode', hwork, hwork', hin, hout.mpr hin⟩

/-- `t("a,b", a, b, "0.0")`. -/
def oddNames : Tree := .table ⟨"t", ["a,b", "a", "b", "0.0"], none⟩

/--
**Different specifications do share their tables.** The column `a,b` has the key of the columns `a` and `b`.
And the column `0.0` with two probabilities has the key of the same column with one of them, if the name of
the probabilities takes the place of the other.
-/
theorem different_specs_share_tables :
    (ShareTables Digest.hex oddNames (zerosSpec "p" ["a,b"] 1) (zerosSpec "p" ["a", "b"] 1) ∧
      ¬SameSummary (resolve Digest.hex oddNames (zerosSpec "p" ["a,b"] 1))
        (resolve Digest.hex oddNames (zerosSpec "p" ["a", "b"] 1))) ∧
    ShareTables Digest.hex oddNames (zerosSpec "p" ["0.0"] 2) (zerosSpec "p|0.0" ["0.0"] 1) ∧
      ¬SameSummary (resolve Digest.hex oddNames (zerosSpec "p" ["0.0"] 2))
        (resolve Digest.hex oddNames (zerosSpec "p|0.0" ["0.0"] 1)) := by
  refine ⟨⟨?_, fun hsame => absurd hsame.columns (by decide)⟩, ?_,
    fun hsame => absurd hsame.probsName (by decide)⟩
  · exact .of_stagingKey ⟨rfl, rfl⟩ ⟨rfl, rfl⟩ (quantile_zeros 0 rfl rfl rfl rfl ⟨by decide, by decide⟩)
      (quantile_zeros 0 rfl rfl rfl rfl ⟨by decide, by decide⟩) (stagingKey_eq_iff.mpr ⟨rfl, rfl⟩)
  · exact .of_stagingKey ⟨rfl, rfl⟩ ⟨rfl, rfl⟩ (quantile_zeros 1 rfl rfl rfl rfl ⟨by decide, by decide⟩)
      (quantile_zeros 0 rfl rfl rfl rfl ⟨by decide, by decide⟩) (stagingKey_eq_iff.mpr ⟨rfl, rfl⟩)

end Quantile

end SqlPipeline
