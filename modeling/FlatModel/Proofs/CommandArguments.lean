import FlatModel.Command.Options

/-!
# Arguments of the command

Every run can be asked for, and help and version can be asked for in its place.

* `Options.flags`, `Options.args` — the arguments that ask for a run.
* `Parsing.run_flags` — what has been read behind the flags and the option.
* `Options.ofArgs_args` — the arguments of a run are read as its options.
* `Options.ofArgs_halt` — what is asked for behind the flags of a run is given, whatever follows.
-/

namespace FlatModel.Command

namespace Options

/-- The arguments for the flags and for the option of a run. -/
def flags (o : Options) : List String :=
  (if o.linearize then ["--linearize"] else []) ++ (if o.verbose then ["--verbose"] else []) ++
    o.template.toList.map ("--template=" ++ ·)

/-- The arguments that ask for a run.  Its file and its model may have any names, as they stand behind
the end of the flags. -/
def args (o : Options) : List String := o.flags ++ ["--", o.tree, o.model]

end Options

namespace Parsing

variable {p : Parsing} {rest : List String}

/-- A template file behind an equals sign. -/
theorem longFlag_template (p : Parsing) (file : String) :
    p.longFlag ("template=".toList ++ file.toList) =
      (p.setTemplate file).map fun p => (p, .nothing) := by
  have hlinearize : "template=".toList ++ file.toList ≠ "linearize".toList := by simp
  have hverbose : "template=".toList ++ file.toList ≠ "verbose".toList := by simp
  have hhelp : "template=".toList ++ file.toList ≠ "help".toList := by simp
  have hversion : "template=".toList ++ file.toList ≠ "version".toList := by simp
  have htemplate : "template=".toList ++ file.toList ≠ "template".toList := by simp
  have hprefix : "template=".toList.isPrefixOf ("template=".toList ++ file.toList) = true :=
    List.isPrefixOf_iff_prefix.mpr (List.prefix_append _ _)
  rw [longFlag, if_neg hlinearize, if_neg hverbose, if_neg hhelp, if_neg hversion, if_neg htemplate,
    if_pos hprefix, List.drop_left, String.ofList_toList]

/-- The flag `--linearize` is set if it is given. -/
theorem run_linearize (h : p.linearize = false) (given : Bool) :
    p.run .nothing ((if given then ["--linearize"] else []) ++ rest) =
      run { p with linearize := given } .nothing rest := by
  cases given with
  | false =>
      have hsame : { p with linearize := false } = p := by rw [← h]
      rw [hsame]
      rfl
  | true =>
      show (p.setLinearize.map _).bind _ = _
      rw [setLinearize, h]
      rfl

/-- The flag `--verbose` is set if it is given. -/
theorem run_verbose (h : p.verbose = false) (given : Bool) :
    p.run .nothing ((if given then ["--verbose"] else []) ++ rest) =
      run { p with verbose := given } .nothing rest := by
  cases given with
  | false =>
      have hsame : { p with verbose := false } = p := by rw [← h]
      rw [hsame]
      rfl
  | true =>
      show (p.setVerbose.map _).bind _ = _
      rw [setVerbose, h]
      rfl

/-- The option `--template` is set if it is given. -/
theorem run_template (h : p.template = none) (given : Option String) :
    p.run .nothing (given.toList.map ("--template=" ++ ·) ++ rest) =
      run { p with template := given } .nothing rest := by
  cases given with
  | none =>
      have hsame : { p with template := none } = p := by rw [← h]
      rw [hsame]
      rfl
  | some file =>
      have hchars : ("--template=" ++ file).toList =
          '-' :: '-' :: ("template=".toList ++ file.toList) := by simp
      rw [Option.toList_some, List.map_singleton, List.singleton_append, run, hchars]
      show (p.longFlag _).bind _ = _
      rw [longFlag_template, setTemplate, h]
      rfl

/-- **The flags and the option of a run** are set when they have been read. -/
theorem run_flags (o : Options) (rest : List String) :
    run {} .nothing (o.flags ++ rest) =
      run ⟨[], o.template, o.linearize, o.verbose⟩ .nothing rest := by
  rw [Options.flags, List.append_assoc, List.append_assoc, run_linearize rfl, run_verbose rfl,
    run_template rfl]

end Parsing

namespace Options

/-- **Every run can be asked for**: the arguments of its options are read as these. -/
theorem ofArgs_args (o : Options) : ofArgs o.args = .ok o := by
  rw [ofArgs, args, Parsing.run_flags]
  rfl

/-- The same where only success is asked for. -/
theorem ofArgs?_args (o : Options) : ofArgs? o.args = some o := by
  rw [ofArgs?, ofArgs_args]
  rfl

/-- **Help and version can be asked for** behind the flags of any run.  They are given whatever follows,
be it misused. -/
theorem ofArgs_halt (o : Options) (rest : List String) :
    ofArgs (o.flags ++ "--help" :: rest) = .error .help ∧
      ofArgs (o.flags ++ "-h" :: rest) = .error .help ∧
      ofArgs (o.flags ++ "--version" :: rest) = .error .version ∧
      ofArgs (o.flags ++ "-V" :: rest) = .error .version := by
  simp only [ofArgs, Parsing.run_flags]
  exact ⟨rfl, rfl, rfl, rfl⟩

end Options

end FlatModel.Command
