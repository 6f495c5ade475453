import Mathlib.Tactic.SplitIfs
import SqlPipeline.Cli.Options

/-!
# What the arguments say

Arguments are read from left to right, and a flag that takes a value takes the next
argument along, whatever it looks like. `Argument.split` is that reading and nothing else:
it says which arguments are values and which are words of their own. `Options.said` then
describes the options without reading in order. A switch is on if its word was given,
and a flag has the last of its values.

The two readings agree: arguments without a fault are parsed to the options that they
say. A step sets one field and leaves all others, so the field after a run of steps is
what the last step that sets it says.
-/

namespace SqlPipeline.Cli

/-- An argument together with the value that it takes. -/
inductive Argument where
  | value (flag : ValueFlag) (text : Text)
  | word (text : Text)
  deriving Repr, DecidableEq

namespace Argument

/-- The arguments with their values. A flag at the end has none and stands alone. -/
def split : List Text → List Argument
  | [] => []
  | argument :: rest =>
    match ValueFlag.ofName? argument, rest with
    | some flag, text :: rest => value flag text :: split rest
    | some _, [] => [word argument]
    | none, rest => word argument :: split rest

/-- Sets what an argument says, if it is one that can be used. -/
def apply (o : Options) : Argument → Option Options
  | value flag text =>
    match o.setValue flag text with
    | (o, none) => some o
    | (_, some _) => none
  | word text => o.setSwitch text

/-- The value that an argument gives to a flag. -/
def valueOf (flag : ValueFlag) : Argument → Option Text
  | value given text => if given = flag then some text else none
  | word _ => none

/-- What an argument turns a switch to that its word turns to `on`. -/
def turns (text : Text) (on : Bool) (a : Argument) : Option Bool :=
  if a = word text then some on else none

end Argument

/-- The word stands among the arguments, and not as the value of a flag. -/
def Given (text : Text) (args : List Text) : Prop := Argument.word text ∈ Argument.split args

instance (text : Text) (args : List Text) : Decidable (Given text args) :=
  inferInstanceAs (Decidable (_ ∈ _))

/-- The value that the arguments give to a flag, the last one if there are several. -/
def lastValue? (flag : ValueFlag) (args : List Text) : Option Text :=
  ((Argument.split args).filterMap (Argument.valueOf flag)).getLast?

namespace Options

/-- The options that arguments say. -/
def said (args : List Text) : Options :=
  { pipelineFile := (lastValue? .pipeline args).getD []
    dialect := (lastValue? .dialect args).getD []
    configPath := (lastValue? .config args).getD []
    outputMode := (lastValue? .mode args).bind OutputMode.ofName?
    outputLimit := (lastValue? .limit args).bind Count.flag
    sourceLimit := (lastValue? .sourceLimit args).bind Count.flag
    outputColumns := ((lastValue? .columns args).map splitColumns).getD []
    formatTree := decide (Given "--format" args)
    describe := decide (Given "--describe" args)
    verbose := decide (Given "--verbose" args)
    color := !decide (Given "--color=disabled" args)
    showHelp := decide (Given "--help" args) }

/-- Parsing without a fault sets what each argument says, one after the other. -/
theorem foldlM_of_parseFrom {o o' : Options} {args : List Text} (h : o.parseFrom args = (o', none)) :
    (Argument.split args).foldlM Argument.apply o = some o' := by
  -- an argument either takes the next one as its value or stands alone; a fault ends the reading
  fun_induction parseFrom o args with
  | case1 o =>
    obtain ⟨rfl, -⟩ := Prod.mk.inj h
    rfl
  | case2 o argument flag text rest hflag o₁ hset ih =>
    unfold Argument.split
    simp only [hflag, List.foldlM_cons, Argument.apply, hset]
    exact ih h
  | case3 => exact absurd h (by simp)
  | case4 => exact absurd h (by simp)
  | case5 o argument rest hflag o₁ hset ih =>
    simp only [Argument.split, hflag, List.foldlM_cons, Argument.apply, hset]
    exact ih h
  | case6 => exact absurd h (by simp)

/-- What a field is after a run of steps, each of which sets it or leaves it. -/
theorem field_of_foldlM {α : Type} (get : Options → α) (sets : Argument → Option α)
    (hstep : ∀ o o' a, Argument.apply o a = some o' → get o' = (sets a).getD (get o))
    {as : List Argument} {o o' : Options} (h : as.foldlM Argument.apply o = some o') :
    get o' = (as.filterMap sets).getLast?.getD (get o) := by
  induction as generalizing o with
  | nil =>
    obtain rfl := Option.some.inj h
    rfl
  | cons a rest ih =>
    rw [List.foldlM_cons] at h
    obtain ⟨o₁, hset, hrest⟩ := Option.bind_eq_some_iff.mp h
    -- a later setting of the field wins, and this one counts only without
    rw [ih hrest, hstep o o₁ a hset]
    cases hs : sets a with
    | none => rw [List.filterMap_cons_none hs]; rfl
    | some v =>
      rw [List.filterMap_cons_some hs, List.getLast?_cons]
      rfl

/-- What one argument does to the options: a value goes to the field of its flag, a word turns its
switch, and every other field stays. -/
theorem eq_of_apply {o o' : Options} {a : Argument} (h : a.apply o = some o') :
    o' =
      { pipelineFile := (a.valueOf .pipeline).getD o.pipelineFile
        dialect := (a.valueOf .dialect).getD o.dialect
        configPath := (a.valueOf .config).getD o.configPath
        outputMode := ((a.valueOf .mode).map OutputMode.ofName?).getD o.outputMode
        outputLimit := ((a.valueOf .limit).map Count.flag).getD o.outputLimit
        sourceLimit := ((a.valueOf .sourceLimit).map Count.flag).getD o.sourceLimit
        outputColumns := ((a.valueOf .columns).map splitColumns).getD o.outputColumns
        formatTree := (a.turns "--format" true).getD o.formatTree
        describe := (a.turns "--describe" true).getD o.describe
        verbose := (a.turns "--verbose" true).getD o.verbose
        color := (a.turns "--color=disabled" false).getD o.color
        showHelp := (a.turns "--help" true).getD o.showHelp } := by
  -- each flag writes one field, and none looks at the fields of the others
  cases a with
  | value flag text =>
    simp only [Argument.apply] at h
    split at h
    · rename_i o₁ hset
      obtain rfl := Option.some.inj h
      cases flag with
      | pipeline | dialect | config =>
        obtain ⟨rfl, -⟩ := Prod.mk.inj hset
        rfl
      | mode =>
        simp only [setValue] at hset
        split at hset
        · rename_i mode hmode
          obtain ⟨rfl, -⟩ := Prod.mk.inj hset
          simp [Argument.valueOf, Argument.turns, hmode]
        · simp at hset
      | limit | sourceLimit =>
        simp only [setValue] at hset
        split at hset
        · rename_i n hn
          obtain ⟨rfl, -⟩ := Prod.mk.inj hset
          simp [Argument.valueOf, Argument.turns, hn]
        · simp at hset
      | columns =>
        obtain ⟨rfl, -⟩ := Prod.mk.inj hset
        rfl
    · simp at h
  | word text =>
    simp only [Argument.apply, setSwitch] at h
    split_ifs at h with hw hw hw hw hw
    all_goals
      subst hw
      obtain rfl := Option.some.inj h
      rfl

section Parsed

variable {α : Type} {args : List Text} {o : Options}

/-- A field that the values of a flag set is read from the last of them. -/
theorem value_of_parse (get : Options → α) (flag : ValueFlag) (read : Text → α)
    (hstep : ∀ o o' a, Argument.apply o a = some o' →
      get o' = ((a.valueOf flag).map read).getD (get o))
    (h : parse args = (o, none)) : get o = ((lastValue? flag args).map read).getD (get default) := by
  rw [field_of_foldlM get (fun a => (a.valueOf flag).map read) hstep (foldlM_of_parseFrom h),
    lastValue?, ← List.getLast?_map, List.map_filterMap]

/-- The last argument that turns a switch turns it as every other one does. -/
theorem getLast?_turns (text : Text) (on : Bool) (as : List Argument) :
    (as.filterMap (Argument.turns text on)).getLast? =
      if Argument.word text ∈ as then some on else none := by
  induction as with
  | nil => rfl
  | cons a rest ih =>
    by_cases ha : a = Argument.word text
    · have hturns : a.turns text on = some on := if_pos ha
      rw [List.filterMap_cons_some hturns, List.getLast?_cons, ih, ha, if_pos List.mem_cons_self]
      split
      · rfl
      · rfl
    · have hturns : a.turns text on = none := if_neg ha
      rw [List.filterMap_cons_none hturns, ih]
      simp [Ne.symm ha]

/-- A field that a word turns is as the word turns it, if it was given. -/
theorem switch_of_parse (get : Options → Bool) (text : Text) (on : Bool)
    (hstep : ∀ o o' a, Argument.apply o a = some o' → get o' = (a.turns text on).getD (get o))
    (h : parse args = (o, none)) : get o = if Given text args then on else get default := by
  rw [field_of_foldlM get (Argument.turns text on) hstep (foldlM_of_parseFrom h), getLast?_turns]
  by_cases hg : Argument.word text ∈ Argument.split args
  · rw [if_pos hg, if_pos (show Given text args from hg)]
    rfl
  · rw [if_neg hg, if_neg (show ¬Given text args from hg)]
    rfl

/-- **Arguments without a fault are parsed to the options that they say.** -/
theorem parse_eq_said (h : parse args = (o, none)) : o = said args := by
  have hpipeline := value_of_parse pipelineFile .pipeline id (fun _ _ _ ha => by simp [eq_of_apply ha]) h
  have hdialect := value_of_parse dialect .dialect id (fun _ _ _ ha => by simp [eq_of_apply ha]) h
  have hconfig := value_of_parse configPath .config id (fun _ _ _ ha => by simp [eq_of_apply ha]) h
  have hmode := value_of_parse outputMode .mode OutputMode.ofName?
    (fun _ _ _ ha => congrArg outputMode (eq_of_apply ha)) h
  have hlimit := value_of_parse outputLimit .limit Count.flag
    (fun _ _ _ ha => congrArg outputLimit (eq_of_apply ha)) h
  have hsource := value_of_parse sourceLimit .sourceLimit Count.flag
    (fun _ _ _ ha => congrArg sourceLimit (eq_of_apply ha)) h
  have hcolumns := value_of_parse outputColumns .columns splitColumns
    (fun _ _ _ ha => congrArg outputColumns (eq_of_apply ha)) h
  have hformat := switch_of_parse formatTree "--format" true
    (fun _ _ _ ha => congrArg formatTree (eq_of_apply ha)) h
  have hdescribe := switch_of_parse describe "--describe" true
    (fun _ _ _ ha => congrArg describe (eq_of_apply ha)) h
  have hverbose := switch_of_parse verbose "--verbose" true
    (fun _ _ _ ha => congrArg verbose (eq_of_apply ha)) h
  have hcolor := switch_of_parse color "--color=disabled" false
    (fun _ _ _ ha => congrArg color (eq_of_apply ha)) h
  have hhelp := switch_of_parse showHelp "--help" true
    (fun _ _ _ ha => congrArg showHelp (eq_of_apply ha)) h
  -- a value that cannot be read would have been a fault, so an option of an option is flat here
  have hbind : ∀ {β : Type} (read : Text → Option β) (v : Option Text),
      (v.map read).getD none = v.bind read := fun read v => by cases v <;> rfl
  cases o
  simp only [default, Option.map_id, id, hbind] at *
  simp only [said, mk.injEq]
  refine ⟨hpipeline, hdialect, hconfig, hmode, hlimit, hsource, hcolumns, ?_, ?_, ?_, ?_, ?_⟩
  · simpa using hformat
  · simpa using hdescribe
  · simpa using hverbose
  · simpa using hcolor
  · simpa using hhelp

end Parsed

end Options

end SqlPipeline.Cli
