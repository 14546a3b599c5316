import ApiReference.Command.Line

/-!
# Options in rounds

Options that are given in rounds are merged, and what a later round gives counts.  Merging is
associative and no options are its unit, so rounds can be put together in any way.

An argument is an option exactly if it is written as one (`ofArgument?_eq_some_iff`).  To set an
option is to merge what its argument alone gives (`set_eq_merge`), so each option has the value that
the last argument for it gives (`parse_eq`).  Arguments that are read in two rounds or one by one
therefore give what they give at once (`parse_append`, `foldl_merge`).

On a command line `-o` takes the argument behind it.  With each such pair joined to one argument
(`joinOutputs`) a command line gives the same options (`readArguments_eq`) and has the same unknown
arguments (`unknownArguments_eq`), so the build command does the same (`runBuild_joinOutputs`).  The
main statement, `readArguments_atOnce`, says all this of the options of a command line.
-/

set_option autoImplicit false

namespace ApiReference

/-! ## Written options -/

theorem textBehind?_eq_some_iff {beginning text behind : String} :
    textBehind? beginning text = some behind ↔ text = beginning ++ behind := by
  rw [textBehind?]
  split
  · rename_i begins
    obtain ⟨rest, whole⟩ := List.isPrefixOf_iff_prefix.mp begins
    rw [← whole, List.drop_left, Option.some_inj, ← String.toList_inj, ← String.toList_inj,
      String.toList_append, ← whole, List.append_cancel_left_eq, String.toList_ofList]
  · rename_i begins
    refine iff_of_false (Option.some_ne_none _).symm fun same => begins ?_
    rw [same, String.toList_append]
    exact List.isPrefixOf_iff_prefix.mpr (List.prefix_append ..)

namespace BuildOption

/-- What the argument that gives an option begins with. -/
def beginning : BuildOption → String
  | output _ => "--output="
  | table _ => "--typedefs="
  | emittedTable _ => "--emit-typedefs="
  | ignore _ => "--ignore="
  | noReport => "--no-report"

/-- What stands behind the beginning. -/
def value : BuildOption → String
  | output path | table path | emittedTable path | ignore path => path
  | noReport => ""

/-- The argument that gives an option. -/
def written (option : BuildOption) : String :=
  option.beginning ++ option.value

theorem ofArgument?_written (option : BuildOption) :
    ofArgument? option.written = some option := by
  -- No beginning of an option begins another, so what is tried before the right one fails.
  cases option <;> simp only [written, beginning, value] <;> simp [ofArgument?, textBehind?]

theorem ofArgument?_eq_some_iff {argument : String} {option : BuildOption} :
    ofArgument? argument = some option ↔ argument = option.written := by
  refine ⟨fun given => ?_, fun same => same ▸ ofArgument?_written option⟩
  simp only [ofArgument?, Option.orElse_eq_orElse, Option.orElse_eq_or, Option.or_eq_some_iff,
    Option.map_eq_some_iff, textBehind?_eq_some_iff, Option.ite_none_right_eq_some,
    Option.some_inj] at given
  obtain ⟨path, rfl, rfl⟩ | ⟨-, ⟨path, rfl, rfl⟩ | ⟨-, ⟨path, rfl, rfl⟩ | ⟨-, ⟨path, rfl, rfl⟩ |
    ⟨-, rfl, rfl⟩⟩⟩⟩ := given
  · rfl
  · rfl
  · rfl
  · rfl
  · exact String.append_empty.symm

theorem noReport_eq_written_iff (option : BuildOption) :
    "--no-report" = option.written ↔ option = noReport := by
  have read : ofArgument? "--no-report" = some noReport := ofArgument?_written noReport
  rw [← ofArgument?_eq_some_iff, read, Option.some_inj, eq_comm]

end BuildOption

namespace BuildOptions

open BuildOption (ofArgument? ofArgument?_written ofArgument?_eq_some_iff)

/-! ## Merging -/

theorem merge_assoc (first second third : BuildOptions) :
    (first.merge second).merge third = first.merge (second.merge third) := by
  simp [merge, Option.or_assoc, Bool.or_assoc]

theorem none_merge (options : BuildOptions) : none.merge options = options := by
  simp [merge, none]

theorem merge_none (options : BuildOptions) : options.merge none = options := by
  simp [merge, none]

/-! ## The last argument for an option -/

/-- What stands behind a beginning in the last argument that has it. -/
def lastValue? (beginning : String) (arguments : List String) : Option String :=
  CommandLine.optionValue? beginning arguments.reverse

/-- The options of which each has the value that the last argument for it gives. -/
def lastGiven (arguments : List String) : BuildOptions where
  output? := lastValue? "--output=" arguments
  table? := lastValue? "--typedefs=" arguments
  emittedTable? := lastValue? "--emit-typedefs=" arguments
  ignore? := lastValue? "--ignore=" arguments
  noReport := arguments.contains "--no-report"

theorem lastGiven_append (earlier later : List String) :
    lastGiven (earlier ++ later) = (lastGiven earlier).merge (lastGiven later) := by
  simp [lastGiven, merge, lastValue?, CommandLine.optionValue?]

theorem lastGiven_unknown {argument : String} (unknown : ofArgument? argument = .none) :
    lastGiven [argument] = none := by
  simp only [ofArgument?, Option.orElse_eq_orElse, Option.orElse_eq_or, Option.or_eq_none_iff,
    Option.map_eq_none_iff, ite_eq_right_iff, reduceCtorEq, imp_false] at unknown
  obtain ⟨noTable, noEmittedTable, noIgnore, noOutput, reported⟩ := unknown
  simp [lastGiven, lastValue?, CommandLine.optionValue?, none, noTable, noEmittedTable, noIgnore,
    noOutput, Ne.symm reported]

theorem set_eq_merge_lastGiven (options : BuildOptions) (option : BuildOption) :
    options.set option = options.merge (lastGiven [option.written]) := by
  have noReport := BuildOption.noReport_eq_written_iff option
  cases option <;>
    simp only [BuildOption.written, BuildOption.beginning, BuildOption.value] at noReport ⊢ <;>
    simp [set, merge, lastGiven, lastValue?, CommandLine.optionValue?, textBehind?, noReport]

/-- To set options one after another is to merge, for each of them, the last one given. -/
theorem foldl_set (options : BuildOptions) (arguments : List String) :
    (arguments.filterMap ofArgument?).foldl set options =
      options.merge (lastGiven arguments) := by
  induction arguments generalizing options with
  | nil => exact (merge_none options).symm
  | cons argument later ih =>
    have split : lastGiven (argument :: later) = (lastGiven [argument]).merge (lastGiven later) :=
      lastGiven_append [argument] later
    rw [split, ← merge_assoc]
    cases read : ofArgument? argument with
    | none => rw [List.filterMap_cons_none read, ih, lastGiven_unknown read, merge_none]
    | some option =>
      rw [List.filterMap_cons_some read, List.foldl_cons, ih, set_eq_merge_lastGiven,
        ofArgument?_eq_some_iff.mp read]

theorem parse_eq (arguments : List String) : parse arguments = lastGiven arguments := by
  rw [parse, foldl_set, none_merge]

theorem parse_append (earlier later : List String) :
    parse (earlier ++ later) = (parse earlier).merge (parse later) := by
  simp only [parse_eq, lastGiven_append]

theorem parse_cons (argument : String) (later : List String) :
    parse (argument :: later) = (parse [argument]).merge (parse later) :=
  parse_append [argument] later

theorem set_eq_merge (options : BuildOptions) (option : BuildOption) :
    options.set option = options.merge (parse [option.written]) := by
  rw [parse_eq, set_eq_merge_lastGiven]

/-- Merging what the arguments give one by one is merging what they give at once. -/
theorem foldl_merge (options : BuildOptions) (arguments : List String) :
    arguments.foldl (fun options argument => options.merge (parse [argument])) options =
      options.merge (parse arguments) := by
  induction arguments generalizing options with
  | nil => exact (merge_none options).symm
  | cons argument later ih => rw [List.foldl_cons, ih, parse_cons argument later, merge_assoc]

/-! ## The argument behind `-o` -/

/-- The arguments of a command line with each `-o` and the argument behind it, from the left, joined
to one argument.  An `-o` at the end has nothing behind it and stays. -/
def joinOutputs : List String → List String
  | [] => []
  | [argument] => [argument]
  | argument :: next :: later =>
    if argument = outputAnnouncement then (BuildOption.output next).written :: joinOutputs later
    else argument :: joinOutputs (next :: later)

theorem readArguments_eq (options : BuildOptions) (arguments : List String) :
    readArguments options arguments = options.merge (parse (joinOutputs arguments)) := by
  fun_induction joinOutputs arguments generalizing options with
  | case1 => exact (merge_none options).symm
  | case2 argument => rw [readArguments]
  | case3 next later ih =>
    have joined : options.merge (parse [(BuildOption.output next).written]) =
        { options with output? := some next } := (set_eq_merge options (.output next)).symm
    rw [readArguments, if_pos rfl, ih, parse_cons _ (joinOutputs later), ← merge_assoc, joined]
  | case4 argument next later other ih =>
    rw [readArguments, if_neg other, ih, parse_cons argument (joinOutputs (next :: later)),
      merge_assoc]

theorem unknown_cons (argument : String) (later : List String) :
    unknown (argument :: later) = unknown [argument] ++ unknown later :=
  List.filter_append [argument] later

theorem unknown_written (option : BuildOption) : unknown [option.written] = [] := by
  simp [unknown, ofArgument?_written]

theorem unknownArguments_eq (arguments : List String) :
    unknownArguments arguments = unknown (joinOutputs arguments) := by
  fun_induction joinOutputs arguments with
  | case1 => rfl
  | case2 argument => rw [unknownArguments]
  | case3 next later ih =>
    rw [unknownArguments, if_pos rfl, ih, unknown_cons _ (joinOutputs later), unknown_written,
      List.nil_append]
  | case4 argument next later other ih =>
    rw [unknownArguments, if_neg other, ih, unknown_cons argument (joinOutputs (next :: later))]

theorem joinOutputs_cons_of_ne {argument : String} (other : argument ≠ outputAnnouncement)
    (later : List String) : joinOutputs (argument :: later) = argument :: joinOutputs later := by
  cases later with
  | nil => rfl
  | cons next later => rw [joinOutputs, if_neg other]

theorem written_ne_outputAnnouncement (option : BuildOption) :
    option.written ≠ outputAnnouncement := by
  intro same
  have unread : ofArgument? outputAnnouncement = .none := by decide +kernel
  rw [← same, ofArgument?_written] at unread
  exact Option.some_ne_none option unread

theorem joinOutputs_joinOutputs (arguments : List String) :
    joinOutputs (joinOutputs arguments) = joinOutputs arguments := by
  fun_induction joinOutputs arguments with
  | case1 => rfl
  | case2 argument => rfl
  | case3 next later ih =>
    rw [joinOutputs_cons_of_ne (written_ne_outputAnnouncement _), ih]
  | case4 argument next later other ih => rw [joinOutputs_cons_of_ne other, ih]

theorem runBuild_joinOutputs {m : Type → Type} [Monad m] [Workspace m]
    (environmentTable? : Option String) (input : String) (arguments : List String) :
    (CommandLine.runBuild environmentTable? input (joinOutputs arguments) : CommandM m Unit) =
      CommandLine.runBuild environmentTable? input arguments := by
  simp only [CommandLine.runBuild, unknownArguments_eq, readArguments_eq, joinOutputs_joinOutputs]

/-- Arguments that are read one by one and merged give what they give at once, which is for each
option the value of the last argument for it.  Merging is associative and no options are its unit,
so the options of a command line are those of its arguments with each `-o` joined to the argument
behind it, and the build command does the same with these. -/
theorem readArguments_atOnce :
    (∀ arguments : List String,
      arguments.foldl (fun options argument => options.merge (parse [argument])) none =
          parse arguments ∧
        parse arguments = lastGiven arguments) ∧
    (∀ first second third : BuildOptions,
      (first.merge second).merge third = first.merge (second.merge third)) ∧
    (∀ options : BuildOptions, none.merge options = options ∧ options.merge none = options) ∧
    (∀ arguments : List String, readArguments none arguments = parse (joinOutputs arguments)) ∧
    ∀ (m : Type → Type) [Monad m] [Workspace m] (environmentTable? : Option String)
      (input : String) (arguments : List String),
      (CommandLine.runBuild environmentTable? input (joinOutputs arguments) : CommandM m Unit) =
        CommandLine.runBuild environmentTable? input arguments := by
  refine ⟨fun arguments => ⟨?_, parse_eq arguments⟩, merge_assoc,
    fun options => ⟨none_merge options, merge_none options⟩, fun arguments => ?_,
    fun m _ _ => runBuild_joinOutputs⟩
  · rw [foldl_merge, none_merge]
  · rw [readArguments_eq, none_merge]

/-- The second `-o` takes the third as its path, and the last one takes nothing. -/
example : readArguments none ["-o", "a.json", "--output=b.json", "-o", "-o", "-o"] =
    { none with output? := some "-o" } := by
  decide +kernel

end BuildOptions

end ApiReference
