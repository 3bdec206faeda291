import FlatModel.Command.Run
import FlatModel.Proofs.DeclaredIdentifiers
import FlatModel.Proofs.PrintedLinearization

/-!
# What a run prints

A run prints the parts it is asked for one after the other until one fails.  More parts that are asked
for show as more text and change nothing else.

* `printed`, `Outcome.output_ofStages`, `Outcome.exitCode_ofStages` — the texts before the first stage
  that fails are printed, and the exit code is zero if none does.
* `Outcome.andThen`, `Outcome.ofStages_append` — what follows unless there was a failure.
* `generatedPart_eq_ok` — where a module is made, the document was built and the model found.
* `success_verbose_iff`, `output_verbose` — listing and document fail only if the module does.
* `output_linearize`, `failure_ne_modelNotFound` — what the linearization adds, and that it has a class.
* `run_appends` — runs with the same file and model, but different flags.
-/

namespace FlatModel.Command

open Emission

/-! ## Rows of stages -/

/-- The texts of the stages before the first that fails. -/
def printed (stages : List (Except Failure String)) : List String :=
  (stages.takeWhile Except.isOk).filterMap Except.toOption

/-- The text of a stage that succeeds is printed before those of the others. -/
theorem printed_ok (text : String) (rest : List (Except Failure String)) :
    printed (.ok text :: rest) = text :: printed rest := rfl

namespace Outcome

/-- What is printed if more follows; nothing follows a failure. -/
def andThen (o later : Outcome) : Outcome :=
  match o.failure with
  | some _ => o
  | none => ⟨o.output ++ later.output, later.failure⟩

/-- **The texts before the first failure are printed.** -/
theorem output_ofStages (stages : List (Except Failure String)) :
    (ofStages stages).output = String.join (printed stages) := by
  induction stages with
  | nil => rfl
  | cons stage rest ih =>
      cases stage with
      | error e => rfl
      | ok text =>
          show text ++ (ofStages rest).output = _
          rw [ih, printed_ok, String.join_cons]

/-- No failure is reported just if no stage fails. -/
theorem failure_ofStages (stages : List (Except Failure String)) :
    (ofStages stages).failure = none ↔ ∀ stage ∈ stages, stage.isOk = true := by
  induction stages with
  | nil => exact ⟨nofun, fun _ => rfl⟩
  | cons stage rest ih =>
      rw [List.forall_mem_cons]
      cases stage with
      | error e => exact ⟨nofun, nofun⟩
      | ok text => exact ih.trans (and_iff_right rfl).symm

/-- The exit code is zero just if no failure is reported. -/
theorem exitCode_eq_zero_iff (o : Outcome) : o.exitCode = 0 ↔ o.failure = none := by
  unfold exitCode
  cases o.failure <;> simp

/-- The exit code is one if a failure is reported. -/
theorem exitCode_eq_one_iff (o : Outcome) : o.exitCode = 1 ↔ o.failure ≠ none := by
  unfold exitCode
  cases o.failure <;> simp

/-- After a failure nothing follows. -/
theorem andThen_of_failure {o later : Outcome} (h : o.failure ≠ none) : o.andThen later = o := by
  obtain ⟨e, he⟩ := Option.ne_none_iff_exists'.mp h
  rw [andThen, he]

/-- After a success the output goes on. -/
theorem andThen_of_success {o later : Outcome} (h : o.failure = none) :
    o.andThen later = ⟨o.output ++ later.output, later.failure⟩ := by
  rw [andThen, h]

/-- Two outcomes have the same exit code if they fail together. -/
theorem exitCode_congr {o o' : Outcome} (h : o.failure = none ↔ o'.failure = none) :
    o.exitCode = o'.exitCode := by
  have hsome : o.failure.isSome = o'.failure.isSome := by
    rw [Bool.eq_iff_iff, ← not_iff_not, Option.not_isSome_iff_eq_none,
      Option.not_isSome_iff_eq_none, h]
  unfold exitCode
  rw [hsome]

/-- **The exit code is zero just if no stage fails.** -/
theorem exitCode_ofStages (stages : List (Except Failure String)) :
    (ofStages stages).exitCode = 0 ↔ ∀ stage ∈ stages, stage.isOk = true := by
  rw [exitCode_eq_zero_iff, failure_ofStages]

/-- The failure is that of a stage. -/
theorem mem_of_failure {stages : List (Except Failure String)} {e : Failure}
    (h : (ofStages stages).failure = some e) : .error e ∈ stages := by
  induction stages with
  | nil => cases h
  | cons stage rest ih =>
      cases stage with
      | error e' =>
          cases h
          exact List.mem_cons_self
      | ok text => exact List.mem_cons_of_mem _ (ih h)

/-- It does not matter how what follows is grouped. -/
theorem andThen_assoc (first second third : Outcome) :
    (first.andThen second).andThen third = first.andThen (second.andThen third) := by
  by_cases h : first.failure = none
  · rw [andThen_of_success h, andThen_of_success h]
    by_cases h' : second.failure = none
    · rw [andThen_of_success h', andThen, h', String.append_assoc]
    · obtain ⟨e, he⟩ := Option.ne_none_iff_exists'.mp h'
      rw [andThen_of_failure h', andThen, he]
  · rw [andThen_of_failure h, andThen_of_failure h, andThen_of_failure h]

/-- **Rows of stages follow each other** unless the first one fails. -/
theorem ofStages_append (stages more : List (Except Failure String)) :
    ofStages (stages ++ more) = (ofStages stages).andThen (ofStages more) := by
  induction stages with
  | nil =>
      rw [andThen_of_success rfl]
      exact (congrArg (Outcome.mk · _) String.empty_append).symm
  | cons stage rest ih =>
      cases stage with
      | error e => rfl
      | ok text =>
          -- the first stage followed by the others, which are followed by the further ones
          show (Outcome.mk text none).andThen (ofStages (rest ++ more)) = _
          rw [ih, ← andThen_assoc]
          rfl

end Outcome

/-! ## The parts of a run -/

/-- The generated module with a line break behind it. -/
def generatedPart (u : SourceUnit) (model : String) : Except Failure String :=
  match generate u model with
  | .ok text => .ok (text ++ "\n")
  | .error e => .error (.emission e)

/-- The listing and the document of a unit. -/
def verboseParts (u : SourceUnit) : List (Except Failure String) := [.ok (treePart u), documentPart u]

/-- The parts of a run with the built-in template: listing and document on demand, the module, the
linearization on demand. -/
def parts (u : SourceUnit) (model : String) (verbose linearize : Bool) :
    List (Except Failure String) :=
  (if verbose then verboseParts u else []) ++ [generatedPart u model] ++
    (if linearize then [linearizationPart u model] else [])

variable {u : SourceUnit} {model : String}

/-- A module is made only of a unit that has the model and whose document can be built. -/
theorem generatedPart_eq_ok {text : String} (h : generatedPart u model = .ok text) :
    u.classes.contains model = true ∧ ∃ document, documentPart u = .ok document := by
  unfold generatedPart generate at h
  by_cases hmodel : u.classes.contains model = true
  · refine ⟨hmodel, ?_⟩
    rw [if_pos hmodel] at h
    unfold documentPart
    rcases hbuild : build u with e | built
    · rw [hbuild] at h
      cases h
    · exact ⟨_, rfl⟩
  · rw [if_neg hmodel] at h
    cases h

/-- The module comes after listing and document. -/
theorem ofStages_verbose (u : SourceUnit) (model : String) (linearize : Bool) :
    Outcome.ofStages (parts u model true linearize) =
      (Outcome.ofStages (verboseParts u)).andThen
        (Outcome.ofStages (parts u model false linearize)) := by
  rw [← Outcome.ofStages_append]
  rfl

/-- The linearization comes after all else. -/
theorem ofStages_linearize (u : SourceUnit) (model : String) (verbose : Bool) :
    Outcome.ofStages (parts u model verbose true) =
      (Outcome.ofStages (parts u model verbose false)).andThen
        (Outcome.ofStages [linearizationPart u model]) := by
  rw [← Outcome.ofStages_append]
  unfold parts
  rw [if_neg Bool.false_ne_true, List.append_nil, if_pos rfl]

/-- Where all parts succeed, the module is made. -/
theorem exists_generatedPart {verbose linearize : Bool}
    (h : (Outcome.ofStages (parts u model verbose linearize)).failure = none) :
    ∃ text, generatedPart u model = .ok text := by
  have hok := Outcome.failure_ofStages _ |>.mp h (generatedPart u model) (by simp [parts])
  rcases hpart : generatedPart u model with e | text
  · rw [hpart] at hok
    cases hok
  · exact ⟨text, rfl⟩

/-! ## Listing and document before the rest -/

/-- Listing and document can be printed wherever the module can be made. -/
theorem success_verbose_iff (u : SourceUnit) (model : String) (linearize : Bool) :
    (Outcome.ofStages (parts u model true linearize)).failure = none ↔
      (Outcome.ofStages (parts u model false linearize)).failure = none := by
  have hparts : parts u model true linearize =
      verboseParts u ++ parts u model false linearize := rfl
  rw [Outcome.failure_ofStages, hparts, List.forall_mem_append, ← Outcome.failure_ofStages,
    ← Outcome.failure_ofStages]
  refine and_iff_right_of_imp fun hsuccess => ?_
  obtain ⟨text, htext⟩ := exists_generatedPart hsuccess
  obtain ⟨-, document, hdocument⟩ := generatedPart_eq_ok htext
  rw [verboseParts, hdocument]
  rfl

/-- On success listing and document stand before the rest of the output. -/
theorem output_verbose {linearize : Bool}
    (h : (Outcome.ofStages (parts u model false linearize)).exitCode = 0) :
    ∃ document, documentPart u = .ok document ∧
      (Outcome.ofStages (parts u model true linearize)).output =
        treePart u ++ document ++ (Outcome.ofStages (parts u model false linearize)).output := by
  rw [Outcome.exitCode_eq_zero_iff] at h
  obtain ⟨text, htext⟩ := exists_generatedPart h
  obtain ⟨-, document, hdocument⟩ := generatedPart_eq_ok htext
  refine ⟨document, hdocument, ?_⟩
  rw [ofStages_verbose, verboseParts, hdocument, Outcome.andThen_of_success rfl]
  simp [Outcome.ofStages]

/-! ## The linearization behind the rest -/

/-- The linearization adds its text to the output before it, and nothing if it fails. -/
theorem output_linearize (u : SourceUnit) (model : String) (verbose : Bool) :
    ∃ more,
      (Outcome.ofStages (parts u model verbose true)).output =
        (Outcome.ofStages (parts u model verbose false)).output ++ more ∧
      ((Outcome.ofStages (parts u model verbose true)).exitCode = 1 → more = "") ∧
      ((Outcome.ofStages (parts u model verbose true)).exitCode = 0 →
        linearizationPart u model = .ok more) ∧
      ((linearizationPart u model).isOk = false →
        (Outcome.ofStages (parts u model verbose true)).exitCode = 1) := by
  simp only [Outcome.exitCode_eq_one_iff, Outcome.exitCode_eq_zero_iff, ofStages_linearize]
  by_cases h : (Outcome.ofStages (parts u model verbose false)).failure = none
  · rw [Outcome.andThen_of_success h]
    refine ⟨_, rfl, ?_⟩
    cases linearizationPart u model with
    | ok text =>
        have hjoin : (Outcome.ofStages [.ok text]).output = text := String.append_empty
        exact ⟨fun hne => absurd rfl hne, fun _ => congrArg Except.ok hjoin.symm, nofun⟩
    | error e => exact ⟨fun _ => rfl, nofun, fun _ => nofun⟩
  · rw [Outcome.andThen_of_failure h]
    exact ⟨"", (String.append_empty).symm, fun _ => rfl, fun hsuccess => absurd hsuccess h,
      fun _ => h⟩

/-- Before the linearization no model is looked for in vain. -/
theorem failure_ne_of_generated (u : SourceUnit) (model : String) (verbose : Bool) (name : String) :
    (Outcome.ofStages (parts u model verbose false)).failure ≠ some (.modelNotFound name) := by
  intro h
  have hmem := Outcome.mem_of_failure h
  have hdocument : documentPart u ≠ .error (.modelNotFound name) := by
    unfold documentPart
    cases build u <;> nofun
  have hgenerated : generatedPart u model ≠ .error (.modelNotFound name) := by
    unfold generatedPart
    cases generate u model <;> nofun
  cases verbose <;>
    simp [parts, verboseParts, hdocument.symm, hgenerated.symm] at hmem

/-- **The model that is linearized is there**: without it no module is made, and the run has stopped. -/
theorem failure_ne_modelNotFound (u : SourceUnit) (model : String) (verbose linearize : Bool)
    (name : String) :
    (Outcome.ofStages (parts u model verbose linearize)).failure ≠ some (.modelNotFound name) := by
  cases linearize with
  | false => exact failure_ne_of_generated u model verbose name
  | true =>
      rw [ofStages_linearize]
      by_cases h : (Outcome.ofStages (parts u model verbose false)).failure = none
      · obtain ⟨text, htext⟩ := exists_generatedPart h
        obtain ⟨c, hc⟩ : ∃ c, u.classes.find? model = some c :=
          OrderedMap.mem_keys_iff.mp (OrderedMap.contains_iff.mp (generatedPart_eq_ok htext).1)
        rw [Outcome.andThen_of_success h]
        intro hfailure
        have hmem := List.mem_singleton.mp (Outcome.mem_of_failure hfailure)
        unfold linearizationPart at hmem
        rw [hc] at hmem
        dsimp only at hmem
        split at hmem <;> cases hmem
      · rw [Outcome.andThen_of_failure h]
        exact failure_ne_of_generated u model verbose name

/-! ## Runs -/

/-- A run without a template file. -/
def runFlags (files : String → Option String) (tree model : String) (verbose linearize : Bool) :
    Outcome :=
  run files ⟨tree, model, none, linearize, verbose⟩

variable {files : String → Option String} {tree : String}

/-- A run on a unit goes through the parts. -/
theorem runFlags_eq (h : (files tree).bind SourceUnit.load? = some u) (verbose linearize : Bool) :
    runFlags files tree model verbose linearize =
      Outcome.ofStages (parts u model verbose linearize) := by
  obtain ⟨text, hfile, hload⟩ := Option.bind_eq_some_iff.mp h
  have hmodule : modulePart files none u model = generatedPart u model := by
    unfold modulePart generatedPart
    cases generate u model <;> rfl
  unfold runFlags run stages
  dsimp only
  rw [hfile]
  dsimp only
  rw [hload]
  dsimp only
  rw [hmodule]
  rfl

/-- A run without a unit fails at once. -/
theorem runFlags_of_eq_none (h : (files tree).bind SourceUnit.load? = none)
    (verbose linearize : Bool) :
    (runFlags files tree model verbose linearize).output = "" ∧
      (runFlags files tree model verbose linearize).exitCode = 1 := by
  unfold runFlags run
  dsimp only
  rcases hfile : files tree with _ | text
  · exact ⟨rfl, rfl⟩
  · rw [hfile, Option.bind_some] at h
    dsimp only
    rw [h]
    exact ⟨rfl, rfl⟩

/-- **More flags print more text.** A run on a file that holds no unit prints nothing.  A run on a unit
prints the parts that its flags ask for up to the first that fails, and ends with exit code zero if none
does.  So listing and document do not change the exit code, and on success they stand before the rest
of the output.  The linearization leaves the output before it as it is, to which it adds its own text,
and nothing if it fails; the exit code is one then.  A model to be linearized is always found. -/
theorem run_appends (files : String → Option String) (tree model : String) :
    ((files tree).bind SourceUnit.load? = none → ∀ verbose linearize,
      (runFlags files tree model verbose linearize).output = "" ∧
      (runFlags files tree model verbose linearize).exitCode = 1) ∧
    ∀ u, (files tree).bind SourceUnit.load? = some u →
      (∀ verbose linearize,
        (runFlags files tree model verbose linearize).output =
          String.join (printed (parts u model verbose linearize)) ∧
        ((runFlags files tree model verbose linearize).exitCode = 0 ↔
          ∀ part ∈ parts u model verbose linearize, part.isOk = true)) ∧
      (∀ linearize,
        (runFlags files tree model true linearize).exitCode =
          (runFlags files tree model false linearize).exitCode ∧
        ((runFlags files tree model false linearize).exitCode = 0 →
          ∃ document, documentPart u = .ok document ∧
            (runFlags files tree model true linearize).output =
              treePart u ++ document ++ (runFlags files tree model false linearize).output)) ∧
      (∀ verbose, ∃ more,
        (runFlags files tree model verbose true).output =
          (runFlags files tree model verbose false).output ++ more ∧
        ((runFlags files tree model verbose true).exitCode = 1 → more = "") ∧
        ((runFlags files tree model verbose true).exitCode = 0 →
          linearizationPart u model = .ok more) ∧
        ((linearizationPart u model).isOk = false →
          (runFlags files tree model verbose true).exitCode = 1)) ∧
      ∀ verbose linearize name,
        (runFlags files tree model verbose linearize).failure ≠ some (.modelNotFound name) := by
  refine ⟨runFlags_of_eq_none, fun u hload => ?_⟩
  simp only [runFlags_eq hload]
  exact ⟨fun verbose linearize => ⟨Outcome.output_ofStages _, Outcome.exitCode_ofStages _⟩,
    fun linearize =>
      ⟨Outcome.exitCode_congr (success_verbose_iff u model linearize), output_verbose⟩,
    output_linearize u model, failure_ne_modelNotFound u model⟩

/-- A class with a text for an equation's right side: a module can be made of it, but no model. -/
def label : ClassDef where
  name := "Label"
  symbols := .ofList [("text", { name := "text", order := 0 })]
  equations := [⟨.reference 0 "text", .literal 0 (.string "ready"), 0⟩]

/-- The unit of the label alone. -/
def labelUnit : SourceUnit := ⟨.ofList [("Label", label)], 0⟩

/-- The files of the label and of the tank, and no other. -/
def exampleFiles (name : String) : Option String :=
  if name = "label.json" then some labelUnit.text
  else if name = "tank.json" then some tankUnit.text
  else none

/-- The file of the label holds its unit. -/
theorem load?_label : (exampleFiles "label.json").bind SourceUnit.load? = some labelUnit.numbered := by
  rw [exampleFiles, if_pos rfl, Option.bind_some]
  exact SourceUnit.load?_of_short (by decide +kernel) (by decide +kernel)

/-- The file of the tank holds its unit. -/
theorem load?_tank : (exampleFiles "tank.json").bind SourceUnit.load? = some tankUnit.numbered := by
  rw [exampleFiles, if_neg (by decide), if_pos rfl, Option.bind_some]
  exact SourceUnit.load?_of_short (by decide +kernel) (by decide +kernel)

/-- A module is made of a class of a unit without unresolved references. -/
theorem isOk_generatedPart (hmodel : u.numbered.classes.contains model = true)
    (hfaults : u.numbered.faults = []) : (generatedPart u.numbered model).isOk = true := by
  obtain ⟨table, -, hbuild⟩ := build_eq u.numbered
  rw [hfaults] at hbuild
  rw [generatedPart, generate, if_pos hmodel, hbuild]
  rfl

/-- Without a file nothing is printed.  The module of the label stays as it is if the label is to be
linearized, which ends the run with a failure, and listing and document can stand before it.  Behind
the module of the tank its blocks are printed. -/
theorem run_appends_label :
    (runFlags exampleFiles "none.json" "Label" true true).output = "" ∧
    (runFlags exampleFiles "label.json" "Label" false true).exitCode = 1 ∧
    (runFlags exampleFiles "label.json" "Label" false true).output =
      (runFlags exampleFiles "label.json" "Label" false false).output ∧
    (∃ document, (runFlags exampleFiles "label.json" "Label" true false).output =
      treePart labelUnit.numbered ++ document ++
        (runFlags exampleFiles "label.json" "Label" false false).output) ∧
    (runFlags exampleFiles "tank.json" "Tank" false true).exitCode = 0 ∧
    (runFlags exampleFiles "tank.json" "Tank" false true).output =
      (runFlags exampleFiles "tank.json" "Tank" false false).output ++ tankBlocks := by
  obtain ⟨hmissing, -⟩ := run_appends exampleFiles "none.json" "Label"
  obtain ⟨-, hlabelRuns⟩ := run_appends exampleFiles "label.json" "Label"
  obtain ⟨hlabelParts, hverbose, hunsolved, -⟩ := hlabelRuns labelUnit.numbered load?_label
  obtain ⟨-, htankRuns⟩ := run_appends exampleFiles "tank.json" "Tank"
  obtain ⟨htankParts, -, hlinearize, -⟩ := htankRuns tankUnit.numbered load?_tank
  refine ⟨(hmissing rfl true true).1, ?_⟩
  obtain ⟨nothing, hsame, hnothing, -, hfails⟩ := hunsolved false
  have hcode := hfails (by decide +kernel)
  refine ⟨hcode, by rw [hsame, hnothing hcode, String.append_empty], ?_⟩
  have hplain : (runFlags exampleFiles "label.json" "Label" false false).exitCode = 0 :=
    (hlabelParts false false).2.mpr
      (List.forall_mem_singleton.mpr (isOk_generatedPart (by decide +kernel) (by decide +kernel)))
  obtain ⟨document, -, hdocument⟩ := (hverbose false).2 hplain
  refine ⟨⟨document, hdocument⟩, ?_⟩
  have hsuccess : (runFlags exampleFiles "tank.json" "Tank" false true).exitCode = 0 :=
    (htankParts false true).2.mpr (List.forall_mem_cons.mpr
      ⟨isOk_generatedPart (by decide +kernel) (by decide +kernel),
        List.forall_mem_singleton.mpr (by rw [linearizationPart_tank]; rfl)⟩)
  obtain ⟨more, happend, -, hmore, -⟩ := hlinearize false
  -- the blocks are the text that the run adds
  have hblocks : tankBlocks = more := Except.ok.inj (linearizationPart_tank.symm.trans (hmore hsuccess))
  exact ⟨hsuccess, by rw [happend, hblocks]⟩

end FlatModel.Command
