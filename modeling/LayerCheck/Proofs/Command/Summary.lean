import Mathlib
import LayerCheck.Command.Session
import LayerCheck.Proofs.Schedule.Success
import LayerCheck.Proofs.Syntax.Statements

/-! The summary that is printed for people beside the exit code. Both tell whether all files passed, the one by
the errors that are listed and the other by the states of the layers. They agree unless no error may be listed at
all: then the summary says that everything was verified, whatever was found. -/
namespace LayerCheck

/-! ### Bounded lists of errors -/

namespace Diagnostics

theorem limit_add (d : Diagnostics) (error : String) : (d.add error).limit = d.limit := by
  unfold add
  split <;> rfl

/-- The first errors are kept, up to the limit. -/
theorem kept_foldl_add (errors : List String) (d : Diagnostics) :
    (errors.foldl add d).kept = d.kept ++ errors.take (d.limit - d.kept.length) := by
  induction errors generalizing d with
  | nil => simp
  | cons error errors ih =>
    rw [List.foldl_cons, ih, limit_add]
    unfold add
    split
    next hlt =>
      obtain ⟨k, hk⟩ : ∃ k, d.limit - d.kept.length = k + 1 := ⟨d.limit - d.kept.length - 1, by omega⟩
      have hk' : d.limit - (d.kept ++ [error]).length = k := by
        rw [List.length_append, List.length_singleton]
        omega
      rw [hk, hk', List.take_succ_cons, List.append_assoc, List.singleton_append]
    next hge => simp [Nat.sub_eq_zero_of_le (Nat.le_of_not_lt hge)]

end Diagnostics

namespace Session

/-! ### Files -/

theorem run_of_verify {r : Registry} {strict controlFlow : Bool} {tree : Tree} {out : FactTable × Report}
    (h : verify r strict controlFlow tree = .ok out) :
    ∃ closure, Schedule.run strict tree closure .empty = .ok out := by
  have layers (h : (do
      let named ← tree.layers.mapError Abort.declaration
      let closure ← Closure.ofNames r named
      Schedule.run strict tree closure .empty) = .ok out) :
      ∃ closure, Schedule.run strict tree closure .empty = .ok out := by
    obtain ⟨named, -, h⟩ := bind_eq_ok.1 h
    obtain ⟨closure, -, h⟩ := bind_eq_ok.1 h
    exact ⟨closure, h⟩
  unfold verify at h
  split at h
  · obtain ⟨_, -, h⟩ := bind_eq_ok.1 h
    exact layers h
  · exact layers h

/-- A file passes exactly when there is no error to list for it. -/
theorem success_checkFile (root : FileTree) (here : List String) (c : Config) (path : String) :
    (checkFile root here c path).success = true ↔ (checkFile root here c path).errors = [] := by
  unfold checkFile
  split
  next report h =>
    obtain ⟨source, -, h⟩ := bind_eq_ok.1 h
    obtain ⟨tree, -, h⟩ := bind_eq_ok.1 h
    obtain ⟨out, hverify, h⟩ := bind_eq_ok.1 h
    cases h
    obtain ⟨closure, hrun⟩ := run_of_verify hverify
    exact Schedule.success_iff_of_run hrun
  next => simp

/-- Errors are listed unless all files pass or none may be listed. -/
theorem hasErrors_diagnostics (o : ErrorOptions) {reports : List FileReport}
    (h : ∀ r ∈ reports, r.success = true ↔ r.errors = []) :
    (diagnostics o reports).hasErrors = false ↔ reports.all (·.success) = true ∨ o.maxErrors = 0 := by
  rw [diagnostics, Diagnostics.hasErrors, Diagnostics.kept_foldl_add]
  simp only [List.nil_append, List.length_nil, Nat.sub_zero, Bool.not_eq_false', List.isEmpty_iff,
    List.take_eq_nil_iff, List.flatMap_eq_nil_iff, List.map_eq_nil_iff, List.all_eq_true]
  rw [or_comm]
  exact or_congr_left (forall₂_congr fun r hr => (h r hr).symm)

/-! ### The last line -/

/-- The line for some number of files that have all passed. -/
def verifiedLine (o : ErrorOptions) (count : Nat) : String :=
  let files := s!"{count} " ++ if count = 1 then "file" else "files"
  successLine o s!"✓ Checked {files}, all layers verified"

/-- What is printed ends by saying that all layers are verified. -/
def Announced (o : ErrorOptions) (stdout : String) : Prop :=
  ∃ before count, stdout = before ++ verifiedLine o count

/-- How that line ends, with or without colour. -/
theorem exists_end_verifiedLine (o : ErrorOptions) (count : Nat) :
    ∃ start, verifiedLine o count = start ++ "m\n" ∨ verifiedLine o count = start ++ "d\n" := by
  unfold verifiedLine
  extract_lets files
  clear_value files
  unfold successLine
  split
  · refine ⟨"\x1b[32m" ++ (s!"✓ Checked {files}, all layers verified" ++ "\x1b[0"), .inl ?_⟩
    simp only [String.append_assoc]
    rfl
  · refine ⟨s!"✓ Checked {files}, all layers verifie", .inr ?_⟩
    simp only [String.append_assoc]
    rfl

/-- Measurements end with an empty line. -/
theorem statsText_eq (reports : List FileReport) :
    statsText reports = "" ∨ ∃ start, statsText reports = start ++ "\n\n" := by
  unfold statsText
  induction reports with
  | nil => exact .inl rfl
  | cons r reports ih =>
    rw [List.filterMap_cons]
    split
    next => exact ih
    next text h =>
      obtain ⟨report, -, rfl⟩ := Option.map_eq_some_iff.1 h
      rw [String.join_cons]
      right
      rcases ih with ih | ⟨start, ih⟩
      · rw [ih, String.append_empty]
        exact ⟨_, rfl⟩
      · rw [ih]
        exact ⟨_, String.append_assoc.symm⟩

theorem not_announced_empty (o : ErrorOptions) : ¬ Announced o "" := by
  rintro ⟨before, count, h⟩
  obtain ⟨start, hline | hline⟩ := exists_end_verifiedLine o count <;>
    exact absurd (congrArg String.toList h) (by simp [hline])

theorem not_announced_statsText (o : ErrorOptions) (reports : List FileReport) :
    ¬ Announced o (statsText reports) := by
  rcases statsText_eq reports with hstats | ⟨stats, hstats⟩
  · rw [hstats]
    exact not_announced_empty o
  · rintro ⟨before, count, h⟩
    -- the last two characters differ
    obtain ⟨start, hline | hline⟩ := exists_end_verifiedLine o count <;>
    · rw [hstats, hline, ← String.append_assoc] at h
      have hlast := congrArg String.toList h
      rw [String.toList_append, String.toList_append] at hlast
      exact absurd (List.append_inj' hlast (by simp)).2 (by simp)

theorem announced_summary (o : ErrorOptions) (stats : Bool) (reports : List FileReport) :
    Announced o (summary o stats reports).1 ↔ (diagnostics o reports).hasErrors = false := by
  unfold summary
  dsimp only
  split
  next herrors =>
    rw [herrors]
    refine iff_of_false ?_ Bool.noConfusion
    split
    · exact not_announced_statsText o reports
    · exact not_announced_empty o
  next herrors =>
    exact iff_of_true ⟨_, reports.length, rfl⟩ (Bool.not_eq_true _ ▸ herrors)

/-- Whatever the options and the files, a check that writes for people says that all layers are verified exactly when
it ends with exit code zero, or may list no error at all. -/
theorem announced_checkAll (root : FileTree) (here : List String) (c : Config) (stats : Bool) (files : List String)
    (hformat : c.errors.format ≠ .json) :
    ((checkAll root here c stats files).result = .ok 0 ∨ (checkAll root here c stats files).result = .ok 1) ∧
      (Announced c.errors (checkAll root here c stats files).stdout ↔
        (checkAll root here c stats files).result = .ok 0 ∨ c.errors.maxErrors = 0) := by
  have hreports : ∀ r ∈ files.map (checkFile root here c), r.success = true ↔ r.errors = [] := by
    intro r hr
    obtain ⟨path, -, rfl⟩ := List.mem_map.1 hr
    exact success_checkFile root here c path
  have hsummary := (announced_summary c.errors stats _).trans (hasErrors_diagnostics c.errors hreports)
  simp only [checkAll, if_neg hformat]
  refine ⟨?_, hsummary.trans (or_congr_left ?_)⟩
  · split
    · exact .inl rfl
    · exact .inr rfl
  · split <;> simp_all

/-! ### Runs -/

variable {root : FileTree} {here line files : List String} {a : Arguments} {c : Config}

/-- A run that comes to check files ends as the check of those files does. -/
theorem run_eq_checkAll (ha : Arguments.parse line = .ok a) (hc : configFor root here a = .ok c)
    (hinit : a.init = false) (hfiles : (Expansion.list root here a.paths).files = .ok files) (hne : files ≠ []) :
    (run root here line).result = (checkAll root here c a.stats files).result ∧
      (run root here line).stdout = (checkAll root here c a.stats files).stdout := by
  cases files with
  | nil => exact absurd rfl hne
  | cons file files => simp [run, ha, hc, hinit, hfiles]

/-- Where files are checked and errors are written for people, the run says that all layers are verified exactly
when it ends with exit code zero, or may list no error at all. Underneath, a report is one of success exactly when
it lists no error. -/
theorem announced_iff_exit_zero (ha : Arguments.parse line = .ok a) (hc : configFor root here a = .ok c)
    (hinit : a.init = false) (hfiles : (Expansion.list root here a.paths).files = .ok files) (hne : files ≠ [])
    (hformat : c.errors.format ≠ .json) :
    ((run root here line).result = .ok 0 ∨ (run root here line).result = .ok 1) ∧
      (Announced c.errors (run root here line).stdout ↔
        (run root here line).result = .ok 0 ∨ c.errors.maxErrors = 0) ∧
      ∀ tree closure table table' r, Schedule.run false tree closure table = .ok (table', r) →
        (r.success = true ↔ r.errors = []) := by
  obtain ⟨hresult, hstdout⟩ := run_eq_checkAll ha hc hinit hfiles hne
  obtain ⟨hexit, hannounced⟩ := announced_checkAll root here c a.stats files hformat
  rw [hresult, hstdout]
  exact ⟨hexit, hannounced, fun _ _ _ _ _ h => Schedule.success_iff_of_run h⟩

/-! ### A stray return -/

/-- A directory with a configuration and one source that returns outside any function. -/
def strayReturn (options : String) : FileTree :=
  .folder [(".stratarc", .file options.toUTF8), ("bad.strata", .file "return 1\n".toUTF8)]

theorem find_strayReturn (options : String) :
    (strayReturn options).find [] ".stratarc" = .ok (.file options.toUTF8) ∧
      (strayReturn options).find [] "bad.strata" = .ok (.file "return 1\n".toUTF8) := by
  constructor <;> rfl

theorem readText_of_find {path text : String} (h : root.find here path = .ok (.file text.toUTF8)) :
    root.readText here path = .ok text := by
  have htext : String.fromUTF8? text.toUTF8 = some text := dif_pos text.isValidUTF8
  simp only [FileTree.readText, h, bind, Except.bind, htext]

theorem configFor_strayReturn {options : String} (hc : Config.parse options = .ok c) :
    configFor (strayReturn options) [] { paths := ["bad.strata"] } = .ok c := by
  have hload : load (strayReturn options) [] ".stratarc" = .ok c := by
    rw [load, readText_of_find (find_strayReturn options).1]
    change (Config.parse options).mapError _ = _
    rw [hc]
    rfl
  have hdiscover : discover (strayReturn options) [] = c := by
    simp [discover, upward, configNames, defaultConfigFile, hload, Except.toOption]
  simp only [configFor, hdiscover, adjust, Bool.or_false, Bool.and_true, Bool.false_eq_true, if_false]
  rfl

theorem parse_strayReturn : Arguments.parse ["strata", "bad.strata"] = .ok { paths := ["bad.strata"] } := by
  simp [Arguments.parse, Arguments.splitProgram, Arguments.read, Arguments.readFrom, Except.mapError, bind,
    Except.bind]

theorem list_strayReturn (options : String) :
    (Expansion.list (strayReturn options) [] ["bad.strata"]).files = .ok ["bad.strata"] := by
  simp [Expansion.list, (find_strayReturn options).2, Except.map]

theorem statements_strayReturn : (Tree.parse "return 1\n").toOption.map Tree.statements =
    some [.ret ⟨1, 1⟩ (some (.num ⟨1, 8⟩ 1))] := by
  cbv

theorem verifyFile_strayReturn (options : String) (hflow : c.check.controlFlow = true) :
    ∃ e, verifyFile (strayReturn options) [] c "bad.strata" = .error e := by
  obtain ⟨tree, hparse, hstatements⟩ := Tree.exists_parse statements_strayReturn
  have hread := readText_of_find (find_strayReturn options).2
  obtain ⟨fault, hfault⟩ : ∃ fault, ControlFlow.check tree.statements = .error fault := by
    rw [hstatements]
    exact ⟨_, rfl⟩
  refine ⟨.controlFlow fault, ?_⟩
  simp [verifyFile, hread, hparse, verify, hflow, hfault, Except.mapError, bind, Except.bind]

/-- Whatever may be listed, the run fails. -/
theorem result_strayReturn {options : String} (hc : Config.parse options = .ok c)
    (hflow : c.check.controlFlow = true) :
    (run (strayReturn options) [] ["strata", "bad.strata"]).result = .ok 1 := by
  obtain ⟨e, he⟩ := verifyFile_strayReturn options hflow
  rw [(run_eq_checkAll parse_strayReturn (configFor_strayReturn hc) rfl (list_strayReturn options) (by simp)).1]
  simp only [checkAll, checkFile, he, List.map_cons, List.map_nil, List.all_cons, List.all_nil]
  split <;> rfl

/-- With an empty configuration errors are listed, and the summary and the exit code agree. -/
theorem strayReturn_not_announced :
    Config.parse "" = .ok {} ∧ (run (strayReturn "") [] ["strata", "bad.strata"]).result = .ok 1 ∧
      ¬ Announced {} (run (strayReturn "") [] ["strata", "bad.strata"]).stdout := by
  have hc : Config.parse "" = .ok {} := by cbv
  have hresult := result_strayReturn hc rfl
  refine ⟨hc, hresult, fun h => ?_⟩
  have hagrees := announced_iff_exit_zero parse_strayReturn (configFor_strayReturn hc) rfl
    (list_strayReturn _) (by simp) (by decide)
  simpa [hresult] using hagrees.2.1.1 h

/-- No error may be listed, and the run that fails says that all layers are verified. -/
theorem strayReturn_announced :
    (run (strayReturn "[errors]\nmax_errors = 0\n") [] ["strata", "bad.strata"]).result = .ok 1 ∧
      Announced { maxErrors := 0 }
        (run (strayReturn "[errors]\nmax_errors = 0\n") [] ["strata", "bad.strata"]).stdout := by
  have hc : Config.parse "[errors]\nmax_errors = 0\n" = .ok { errors := { maxErrors := 0 } } := by cbv
  refine ⟨result_strayReturn hc rfl, ?_⟩
  rw [(run_eq_checkAll parse_strayReturn (configFor_strayReturn hc) rfl (list_strayReturn _) (by simp)).2]
  exact (announced_checkAll _ _ { errors := { maxErrors := 0 } } _ _ (by decide)).2.2 (.inr rfl)

end Session

end LayerCheck
