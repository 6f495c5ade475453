import SqlPipeline.Cli.Command
import SqlPipeline.Json.Codec
import SqlPipeline.Proofs.Arguments

/-!
# What a run leaves

A run ends in one of five ways: with a fault in its arguments, with one of two help
texts, with a result, or with a message. `Command.Ends` lists them, and everything about
the exit code and the two streams is read off from the list. Only a result or a help
text reaches the output, so a run that fails has printed nothing there, however far it
had come.

A run that compiles prints the whole of one thing. `Command.Compilation` is what such a run
has found on its way, each part with the reason why it is that part: the settings of the
file, the dialect, the document and its tree, the steps that were generated for it and a
rendering of the steps. The output is the rendering.

All of this holds whatever library reads the document and writes the JSON. A library that
fails to do either makes the run fail as any other fault does.

The work itself is a sequence of requests that may fail and that may leave notes. Two
facts about such a sequence are enough. It succeeds where each of its parts does
(`Run.gives_bind`), and it leaves no notes where none of its parts does (`Run.Quiet.bind`).
-/

namespace SqlPipeline.Cli

/-! ## The path of the configuration -/

theorem Config.joinPath_ne_nil (base : Text) {name : Text} (h : name ≠ []) :
    joinPath base name ≠ [] := by
  unfold joinPath
  split
  · exact List.append_ne_nil_of_right_ne_nil _ h
  · exact List.append_ne_nil_of_right_ne_nil _ h

/-- There is always a path to look at. -/
theorem Config.resolvePath_ne_nil (given : Text) (env : Environment) : resolvePath given env ≠ [] := by
  have below (base : Text) : joinPath (joinPath base "relq") "config.toml" ≠ [] :=
    joinPath_ne_nil _ (by decide)
  have hlast : Text.ofString "relq.config.toml" ≠ [] := by decide
  unfold resolvePath
  by_cases hgiven : given = []
  · by_cases hconfig : env.config = []
    · by_cases hxdg : env.configHome = []
      · by_cases hhome : env.home = []
        · simpa [hgiven, hconfig, hxdg, hhome] using hlast
        · simpa [hgiven, hconfig, hxdg, hhome] using below _
      · simpa [hgiven, hconfig, hxdg] using below _
    · simp [hgiven, hconfig]
  · simp [hgiven]

/-! ## Work that may fail and leaves notes -/

namespace Run

variable {α β : Type} {before after : Text}

theorem run_bind (x : Run α) (f : α → Run β) (notes : Text) :
    (x >>= f).run notes =
      match x.run notes with
      | (.ok a, later) => (f a).run later
      | (.error e, later) => (.error e, later) := by
  show StateT.bind x.run (ExceptT.bindCont f) notes = _
  rw [StateT.bind]
  rcases x.run notes with ⟨r, later⟩
  cases r with
  | ok a => rfl
  | error e => rfl

/-- The work succeeds with a value; the texts are the notes before and after it. -/
def Gives (x : Run α) (before : Text) (a : α) (after : Text) : Prop := x.run before = (.ok a, after)

theorem gives_pure {a b : α} : Gives (pure a) before b after ↔ b = a ∧ after = before := by
  constructor
  · intro h
    obtain ⟨ha, rfl⟩ := Prod.mk.inj h
    exact ⟨(Except.ok.inj ha).symm, rfl⟩
  · rintro ⟨rfl, rfl⟩
    rfl

theorem not_gives_throw {message : Text} {a : α} : ¬Gives (throw message) before a after := by
  intro h
  cases (Prod.mk.inj h).1

theorem gives_of {x : Except Error α} {a : α} :
    Gives (Run.of x) before a after ↔ x = .ok a ∧ after = before := by
  cases x with
  | ok b =>
    rw [Run.of, gives_pure, Except.ok.injEq]
    exact and_congr_left fun _ => eq_comm
  | error e => exact ⟨fun h => absurd h not_gives_throw, fun h => nomatch h.1⟩

theorem gives_bind {x : Run α} {f : α → Run β} {b : β} :
    Gives (x >>= f) before b after ↔
      ∃ a between, Gives x before a between ∧ Gives (f a) between b after := by
  unfold Gives
  rw [run_bind]
  -- a run that fails gives nothing, on either side
  rcases x.run before with ⟨r, later⟩
  cases r with
  | ok a =>
    constructor
    · exact fun h => ⟨a, later, rfl, h⟩
    · rintro ⟨a', between, he, h⟩
      obtain ⟨ha, rfl⟩ := Prod.mk.inj he
      obtain rfl := Except.ok.inj ha
      exact h
  | error e =>
    constructor
    · intro h
      cases (Prod.mk.inj h).1
    · rintro ⟨a', between, he, -⟩
      cases (Prod.mk.inj he).1

/-- Notes in front of the rest do not change what the rest gives. -/
theorem Gives.rest {c : Prop} [Decidable c] {x : Run Unit} {rest : Unit → Run β} {b : β}
    (h : Gives (if c then x >>= rest else rest ()) before b after) :
    ∃ between, Gives (rest ()) between b after := by
  split at h
  · obtain ⟨_, between, _, hrest⟩ := gives_bind.mp h
    exact ⟨between, hrest⟩
  · exact ⟨before, h⟩

/-- The work leaves no notes. -/
def Quiet (x : Run α) : Prop := ∀ notes, (x.run notes).2 = notes

theorem quiet_pure (a : α) : Quiet (pure a) := fun _ => rfl

theorem quiet_throw (message : Text) : Quiet (throw message : Run α) := fun _ => rfl

theorem quiet_of (x : Except Error α) : Quiet (Run.of x) := by
  cases x with
  | ok a => exact quiet_pure a
  | error e => exact quiet_throw _

theorem Quiet.bind {x : Run α} {f : α → Run β} (hx : Quiet x) (hf : ∀ a, Quiet (f a)) :
    Quiet (x >>= f) := by
  intro notes
  have hnotes : (x.run notes).2 = notes := hx notes
  rw [run_bind]
  rcases hrun : x.run notes with ⟨r, later⟩
  rw [hrun] at hnotes
  obtain rfl : later = notes := hnotes
  cases r with
  | ok a => exact hf a later
  | error e => rfl

end Run

namespace Command

open Run

/-! ## What the work finds -/

/-- A text shows steps as a whole in a mode, JSON in color if it goes to a terminal and color is on. -/
def Shows (codec : Json.Codec) (w : World) (o : Options) (d : Dialect) (steps : List Step) :
    OutputMode → Text → Prop
  | .plain, output => output = stepsPlain steps
  | .json, output => ∃ json, stepsJson codec d steps = .ok json ∧
    output = (if w.terminals.output = true ∧ o.color = true then colorize json else json) ++ "\n"

/-- What a run that compiles has found, from the files to the text for the output. -/
structure Compilation (codec : Json.Codec) (w : World) (o : Options) where
  settings : Settings
  dialect : Dialect
  content : Text
  tree : Tree
  steps : List Step
  rendering : Text
  /-- The settings are those of the configuration file, which need not be there. -/
  settings_of :
    w.files (Config.resolvePath o.configPath w.environment) = .absent ∧ settings = .unset ∨
    ∃ file, w.files (Config.resolvePath o.configPath w.environment) = .readable file ∧
      Config.load file = (settings, none)
  dialect_of : settings.dialect o.dialect = .ok dialect
  /-- The document is that of the input, if no file is named. -/
  content_of : if o.pipelineFile = [] then content = w.input
    else w.files o.pipelineFile = .readable content
  tree_of : Pipeline.loadText codec Digest.hex content = .ok tree
  /-- A limit that a flag gives counts before that of the configuration file. -/
  steps_of : tree.generate dialect
    { outputLimit := o.outputLimit.or settings.outputLimit
      sourceLimit := o.sourceLimit
      outputColumns := if o.outputColumns = [] then none else some o.outputColumns } = .ok steps
  /-- The mode is that of a flag, of the configuration file or plain text. -/
  rendering_of : Shows codec w o dialect steps
    ((o.outputMode.or settings.outputMode).getD .plain) rendering

section Work

variable {codec : Json.Codec} {w : World} {o : Options} {before after output : Text}

theorem gives_settings {path : Text} {s : Settings} (hpath : path ≠ []) :
    Gives (settings w path) before s after ↔
      (w.files path = .absent ∧ s = .unset ∨
        ∃ file, w.files path = .readable file ∧ Config.load file = (s, none)) ∧ after = before := by
  unfold settings
  rw [if_neg (mt List.isEmpty_iff.mp hpath)]
  cases hfile : w.files path with
  | absent => simp [gives_pure]
  | unknown words => simp [not_gives_throw]
  | closed => simp [not_gives_throw]
  | readable file =>
    rcases hload : Config.load file with ⟨s', fault⟩
    cases fault with
    | none => simp [hload, gives_pure, eq_comm]
    | some f => simp [hload, not_gives_throw]

theorem gives_pipelineText {content : Text} :
    Gives (pipelineText w o) before content after ↔
      (if o.pipelineFile = [] then content = w.input
        else w.files o.pipelineFile = .readable content) ∧ after = before := by
  unfold pipelineText
  by_cases hempty : o.pipelineFile = []
  · rw [if_pos (List.isEmpty_iff.mpr hempty), if_pos hempty, gives_pure]
  · rw [if_neg (mt List.isEmpty_iff.mp hempty), if_neg hempty]
    cases hfile : w.files o.pipelineFile with
    | absent | closed => simp [not_gives_throw]
    | unknown words => simp [not_gives_throw]
    | readable found => simp [gives_pure, eq_comm]

theorem generateOptions_eq (s : Settings) : generateOptions o s =
    { outputLimit := o.outputLimit.or s.outputLimit
      sourceLimit := o.sourceLimit
      outputColumns := if o.outputColumns = [] then none else some o.outputColumns } := by
  simp only [generateOptions, List.isEmpty_iff]

theorem showJson_eq (json : Text) : showJson w o json =
    (if w.terminals.output = true ∧ o.color = true then colorize json else json) ++ "\n" := by
  simp only [showJson, Bool.and_eq_true, and_comm]

theorem gives_compileSteps {s : Settings} {d : Dialect} {mode : OutputMode} {tree : Tree}
    (h : Gives (compileSteps codec w o s d mode tree) before output after) :
    ∃ steps, tree.generate d (generateOptions o s) = .ok steps ∧
      Shows codec w o d steps mode output := by
  unfold compileSteps at h
  obtain ⟨between, h⟩ := Gives.rest h
  obtain ⟨steps, between', hsteps, h⟩ := gives_bind.mp h
  obtain ⟨_, h⟩ := Gives.rest h
  refine ⟨steps, (gives_of.mp hsteps).1, ?_⟩
  cases mode with
  | plain => exact (gives_pure.mp h).1
  | json =>
    obtain ⟨json, _, hjson, h⟩ := gives_bind.mp h
    refine ⟨json, (gives_of.mp hjson).1, ?_⟩
    rw [(gives_pure.mp h).1, showJson_eq]

/-- **Work that compiles gives the rendering of what it has found.** -/
theorem exists_compilation (h : Gives (work codec w o) before output after)
    (hformat : o.formatTree = false) (hdescribe : o.describe = false) :
    ∃ c : Compilation codec w o, output = c.rendering := by
  obtain ⟨s, _, hs, h⟩ := gives_bind.mp h
  obtain ⟨_, h⟩ := Gives.rest h
  obtain ⟨d, _, hd, h⟩ := gives_bind.mp h
  obtain ⟨content, _, hcontent, h⟩ := gives_bind.mp h
  obtain ⟨tree, _, htree, h⟩ := gives_bind.mp h
  rw [if_neg (by simp [hformat]), if_neg (by simp [hdescribe])] at h
  obtain ⟨steps, hsteps, hshows⟩ := gives_compileSteps h
  rw [generateOptions_eq] at hsteps
  have hfile := (gives_settings (Config.resolvePath_ne_nil _ _)).mp hs
  exact ⟨⟨s, d, content, tree, steps, output, hfile.1, (gives_of.mp hd).1,
    (gives_pipelineText.mp hcontent).1, (gives_of.mp htree).1, hsteps, hshows⟩, rfl⟩

/-- Work without notes finds whatever there is to be found. -/
theorem Compilation.gives_work (c : Compilation codec w o) (hverbose : o.verbose = false)
    (hformat : o.formatTree = false) (hdescribe : o.describe = false) :
    Gives (work codec w o) before c.rendering before := by
  have hsteps : c.tree.generate c.dialect (generateOptions o c.settings) = .ok c.steps := by
    rw [generateOptions_eq]
    exact c.steps_of
  simp only [work, hverbose, hformat, hdescribe, Bool.false_eq_true, if_false]
  -- each part of the compilation is what one step of the work gives, in order
  refine gives_bind.mpr ⟨c.settings, before,
    (gives_settings (Config.resolvePath_ne_nil _ _)).mpr ⟨c.settings_of, rfl⟩, ?_⟩
  refine gives_bind.mpr ⟨c.dialect, before, gives_of.mpr ⟨c.dialect_of, rfl⟩, ?_⟩
  refine gives_bind.mpr ⟨c.content, before, gives_pipelineText.mpr ⟨c.content_of, rfl⟩, ?_⟩
  refine gives_bind.mpr ⟨c.tree, before, gives_of.mpr ⟨c.tree_of, rfl⟩, ?_⟩
  simp only [compileSteps, hverbose, Bool.false_eq_true, if_false]
  refine gives_bind.mpr ⟨c.steps, before, gives_of.mpr ⟨hsteps, rfl⟩, ?_⟩
  -- the two ways of showing the steps: only the second one can fail
  have hshows := c.rendering_of
  cases hmode : (o.outputMode.or c.settings.outputMode).getD .plain with
  | plain =>
    rw [hmode] at hshows
    exact gives_pure.mpr ⟨hshows, rfl⟩
  | json =>
    rw [hmode] at hshows
    obtain ⟨json, hjson, hrendering⟩ := hshows
    rw [hrendering, ← showJson_eq]
    exact gives_bind.mpr ⟨json, before, gives_of.mpr ⟨hjson, rfl⟩, gives_pure.mpr ⟨rfl, rfl⟩⟩

/-! ## Notes -/

theorem quiet_settings (path : Text) : Quiet (settings w path) := by
  unfold settings
  split
  · exact quiet_pure _
  · split
    · exact quiet_pure _
    · exact quiet_throw _
    · exact quiet_throw _
    · split
      · exact quiet_pure _
      · exact quiet_throw _

theorem quiet_pipelineText : Quiet (pipelineText w o) := by
  unfold pipelineText
  split
  · exact quiet_pure _
  · cases w.files o.pipelineFile with
    | readable content => exact quiet_pure _
    | absent | closed => exact quiet_throw _
    | unknown words => exact quiet_throw _

theorem quiet_compileSteps {s : Settings} {d : Dialect} {mode : OutputMode} {tree : Tree}
    (h : o.verbose = false) : Quiet (compileSteps codec w o s d mode tree) := by
  simp only [compileSteps, h, Bool.false_eq_true, if_false]
  refine (quiet_of _).bind fun steps => ?_
  cases mode with
  | plain => exact quiet_pure _
  | json => exact (quiet_of _).bind fun _ => quiet_pure _

theorem quiet_describe {mode : OutputMode} {tree : Tree} : Quiet (describe codec w o mode tree) := by
  cases mode with
  | plain => exact quiet_of _
  | json => exact (quiet_of _).bind fun _ => quiet_pure _

/-- **Without the switch for it, work leaves no notes**, whether it fails or not. -/
theorem quiet_work (h : o.verbose = false) : Quiet (work codec w o) := by
  simp only [work, h, Bool.false_eq_true, if_false]
  refine (quiet_settings _).bind fun s => (quiet_of _).bind fun d => quiet_pipelineText.bind
    fun content => (quiet_of _).bind fun tree => ?_
  split
  · exact quiet_pure _
  · split
    · exact quiet_describe
    · exact quiet_compileSteps h

end Work

/-! ## Runs -/

/-- The ways in which a run ends. -/
inductive Ends (codec : Json.Codec) (w : World) : Outcome → Prop where
  | badArguments {o : Options} {fault : ArgumentFault} :
      Options.parse w.args = (o, some fault) → Ends codec w ⟨1, [], fault.message ++ "\n" ++ fullHelp⟩
  | help {o : Options} :
      Options.parse w.args = (o, none) → o.showHelp = true → Ends codec w ⟨0, fullHelp, []⟩
  | startup {o : Options} :
      Options.parse w.args = (o, none) → o.pipelineFile = [] → w.terminals.input = true →
      Ends codec w ⟨0, startupHelp, []⟩
  | done {o : Options} {output notes : Text} :
      Options.parse w.args = (o, none) → Gives (work codec w o) [] output notes →
      Ends codec w ⟨0, output, notes⟩
  | failed {o : Options} {message notes : Text} :
      Options.parse w.args = (o, none) → (work codec w o).run [] = (.error message, notes) →
      Ends codec w ⟨1, [], notes ++ report (o.color && w.terminals.error) message⟩

/-- Every run ends in one of these ways. -/
theorem ends_run (codec : Json.Codec) (w : World) : Ends codec w (run codec w) := by
  unfold run
  split
  · rename_i hparse
    exact .badArguments hparse
  · rename_i o hparse
    split
    · rename_i hhelp
      exact .help hparse hhelp
    · split
      · rename_i hstart
        obtain ⟨hfile, hinput⟩ := Bool.and_eq_true_iff.mp hstart
        exact .startup hparse (List.isEmpty_iff.mp hfile) hinput
      · split
        · rename_i hwork
          exact .done hparse hwork
        · rename_i hwork
          exact .failed hparse hwork

theorem newline_ne_nil : Text.ofString "\n" ≠ [] := by decide

theorem report_ne_nil (color : Bool) (message : Text) : report color message ≠ [] :=
  List.append_ne_nil_of_right_ne_nil _ newline_ne_nil

/-- A help text is all that the run is for: it was asked for, or there is nothing to read. -/
def ShowsHelp (w : World) : Prop :=
  Given "--help" w.args ∨ (lastValue? .pipeline w.args).getD [] = [] ∧ w.terminals.input = true

instance (w : World) : Decidable (ShowsHelp w) := inferInstanceAs (Decidable (_ ∨ _ ∧ _))

section Endings

theorem failure_ne_success : (1 : UInt32) ≠ 0 := by decide

variable {codec : Json.Codec} {w : World} {r : Outcome}

/-- A run that fails has printed nothing and reports why. -/
theorem Ends.reports_failure (h : Ends codec w r) :
    r.exitCode = 0 ∨ r.exitCode = 1 ∧ r.output = [] ∧ r.error ≠ [] := by
  cases h with
  | badArguments _ =>
    refine Or.inr ⟨rfl, rfl, List.append_ne_nil_of_left_ne_nil ?_ _⟩
    exact List.append_ne_nil_of_right_ne_nil _ newline_ne_nil
  | failed _ _ => exact Or.inr ⟨rfl, rfl, List.append_ne_nil_of_right_ne_nil _ (report_ne_nil _ _)⟩
  | help _ _ | startup _ _ _ | done _ _ => exact Or.inl rfl

/-- A run that succeeds notes nothing unless it was asked to. -/
theorem Ends.quiet (h : Ends codec w r) (hcode : r.exitCode = 0) (hverbose : ¬Given "--verbose" w.args) :
    r.error = [] := by
  cases h with
  | help _ _ | startup _ _ _ => rfl
  | @done o output notes hparse hwork =>
    have hv : o.verbose = false := by simp [Options.parse_eq_said hparse, Options.said, hverbose]
    have hnotes : ((work codec w o).run []).2 = [] := quiet_work hv []
    rw [hwork] at hnotes
    exact hnotes
  | badArguments _ | failed _ _ => exact absurd hcode failure_ne_success

/-- A run that succeeds and is there for nothing else prints a rendering of steps. -/
theorem Ends.compiled (h : Ends codec w r) (hcode : r.exitCode = 0) (hhelp : ¬ShowsHelp w)
    (hformat : ¬Given "--format" w.args) (hdescribe : ¬Given "--describe" w.args) :
    ∃ c : Compilation codec w (Options.said w.args), r.output = c.rendering := by
  cases h with
  | help hparse hshow =>
    rw [Options.parse_eq_said hparse] at hshow
    exact absurd (Or.inl (of_decide_eq_true hshow)) hhelp
  | startup hparse hfile hinput =>
    rw [Options.parse_eq_said hparse] at hfile
    exact absurd (Or.inr ⟨hfile, hinput⟩) hhelp
  | done hparse hwork =>
    obtain rfl := Options.parse_eq_said hparse
    exact exists_compilation hwork (decide_eq_false hformat) (decide_eq_false hdescribe)
  | badArguments _ | failed _ _ => exact absurd hcode failure_ne_success

/-- A run prints what there is to be found, if it is there for that alone. -/
theorem run_of_compilation (hparse : (Options.parse w.args).2 = none)
    (hverbose : ¬Given "--verbose" w.args) (hhelp : ¬ShowsHelp w) (hformat : ¬Given "--format" w.args)
    (hdescribe : ¬Given "--describe" w.args) (c : Compilation codec w (Options.said w.args)) :
    run codec w = ⟨0, c.rendering, []⟩ := by
  have hsaid : Options.parse w.args = (Options.said w.args, none) :=
    Prod.ext (Options.parse_eq_said (Prod.ext rfl hparse)) hparse
  obtain ⟨hasked, hstart⟩ := not_or.mp hhelp
  have hshow : ¬(Options.said w.args).showHelp = true := mt of_decide_eq_true hasked
  have hfile : ¬((Options.said w.args).pipelineFile.isEmpty && w.terminals.input) = true := by
    rw [Bool.and_eq_true, List.isEmpty_iff]
    exact hstart
  have hwork : (work codec w (Options.said w.args)).run [] = (.ok c.rendering, []) :=
    c.gives_work (decide_eq_false hverbose) (decide_eq_false hformat) (decide_eq_false hdescribe)
  simp only [run, hsaid, hwork]
  rw [if_neg hshow, if_neg hfile]

end Endings

/-- **A run that fails prints nothing, and one that compiles prints all of its result.** Every run ends
with code 0 or 1. With code 1 the output is empty and the error stream says why; with code 0
the error stream is empty unless notes were asked for. A run with code 0 that shows neither help,
tree nor description prints the steps that were generated for its pipeline, as a whole. And it does
not fail for nothing: without notes, whatever its files lead to is what it prints. -/
theorem run_reports (codec : Json.Codec) (w : World) :
    ((run codec w).exitCode = 0 ∨ (run codec w).exitCode = 1) ∧
    ((run codec w).exitCode = 1 → (run codec w).output = [] ∧ (run codec w).error ≠ []) ∧
    ((run codec w).exitCode = 0 → ¬Given "--verbose" w.args → (run codec w).error = []) ∧
    ((run codec w).exitCode = 0 → ¬ShowsHelp w → ¬Given "--format" w.args →
      ¬Given "--describe" w.args →
      ∃ c : Compilation codec w (Options.said w.args), (run codec w).output = c.rendering) ∧
    ((Options.parse w.args).2 = none → ¬Given "--verbose" w.args → ¬ShowsHelp w →
      ¬Given "--format" w.args → ¬Given "--describe" w.args →
      ∀ c : Compilation codec w (Options.said w.args), run codec w = ⟨0, c.rendering, []⟩) := by
  have hends : Ends codec w (run codec w) := ends_run codec w
  refine ⟨?_, fun hcode => ?_, hends.quiet, hends.compiled, run_of_compilation⟩
  · exact hends.reports_failure.imp_right And.left
  · -- no case ends with both codes
    rcases hends.reports_failure with hzero | ⟨-, hfailed⟩
    · exact absurd (hcode.symm.trans hzero) failure_ne_success
    · exact hfailed

/-- A run on a terminal whose flag and whose file both set a limit. -/
def limitedRun : World where
  args := ["--mode", "json", "--limit", "5"]
  input := "[\x7b\"op\": \"table\", \"name\": \"t\", \"columns\": [\"x\"]\x7d]"
  files path :=
    if path = Text.ofString "relq.config.toml" then .readable "[output]\nlimit = 9\n" else .absent
  environment := ⟨[], [], []⟩
  terminals := ⟨false, true, true⟩

theorem run_reports_limitedRun :
    (run .strict limitedRun).exitCode = 0 ∧ (run .strict limitedRun).error = [] ∧
    ∃ c : Compilation .strict limitedRun (Options.said limitedRun.args),
      (run .strict limitedRun).output = c.rendering := by
  have hcode : (run .strict limitedRun).exitCode = 0 := by decide +kernel
  obtain ⟨-, -, hquiet, hcompiled, -⟩ := run_reports .strict limitedRun
  refine ⟨hcode, hquiet hcode (by decide +kernel), ?_⟩
  exact hcompiled hcode (by decide +kernel) (by decide +kernel) (by decide +kernel)

end Command

end SqlPipeline.Cli
