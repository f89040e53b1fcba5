import Mathlib.Data.List.Basic
import PlanGraph.Proofs.Command.Stages
import PlanGraph.Proofs.Rdf.IriFaults

/-! Failing runs. A run that fails leaves every file as it was, with one exception: a build into a file
empties that file before the graph is exported, and the export can still find that a namespace of the plan
is no absolute IRI. -/

set_option autoImplicit false
namespace PlanGraph

def Graph.HasRelativeNamespace (graph : Graph) (fault : Rdf.IriFault) : Prop :=
  ∃ before namespaceIri after, graph.prefixes.values = before ++ namespaceIri :: after ∧
    (∀ other ∈ before, Rdf.isAbsoluteIri other.toList = true) ∧
    Rdf.isAbsoluteIri namespaceIri.toList = false ∧ Rdf.iriFault? namespaceIri.toList = some fault

theorem Graph.findSome?_iriFault? {graph : Graph} {fault : Rdf.IriFault} :
    graph.prefixes.values.findSome? (fun namespaceIri => Rdf.iriFault? namespaceIri.toList) = some fault ↔
      graph.HasRelativeNamespace fault := by
  simp only [HasRelativeNamespace, List.findSome?_eq_some_iff, Rdf.iriFault?_eq_none_iff]
  constructor
  · rintro ⟨before, namespaceIri, after, whole, found, clear⟩
    have relative : Rdf.isAbsoluteIri namespaceIri.toList = false := by
      apply Bool.eq_false_iff.mpr
      intro absolute
      rw [Rdf.iriFault?_eq_none_iff.mpr absolute] at found
      cases found
    exact ⟨before, namespaceIri, after, whole, clear, relative, found⟩
  · rintro ⟨before, namespaceIri, after, whole, clear, _, found⟩
    exact ⟨before, namespaceIri, after, whole, found, clear⟩

theorem Graph.checkPrefixes_eq_error_iff {graph : Graph} {error : ExportError} :
    graph.checkPrefixes = .error error ↔
      ∃ fault, error = .invalidPrefix fault ∧ graph.HasRelativeNamespace fault := by
  simp only [← Graph.findSome?_iriFault?, checkPrefixes]
  split
  · next fault found => simp [found, eq_comm]
  · next clear => simp [clear]

namespace Command
open Rdf (Format)

section
variable {format : Format} {graph : Graph} {failure : Failure}

theorem exportGraph_eq_error_iff (supports : format.supportsDatasets = true) :
    exportGraph graph format = .error failure ↔
      format = .triG ∧
        ∃ fault, failure = .notExported (.invalidPrefix fault) ∧ graph.HasRelativeNamespace fault := by
  cases format with
  | triG =>
    cases checked : graph.checkPrefixes with
    | error error =>
      have failed : exportGraph graph .triG = .error (.notExported error) := by
        simp [exportGraph, Graph.export, checked, bind, Except.bind, Except.mapError]
      simp only [failed, Except.error.injEq, true_and]
      constructor
      · rintro rfl
        obtain ⟨fault, rfl, relative⟩ := Graph.checkPrefixes_eq_error_iff.mp checked
        exact ⟨fault, rfl, relative⟩
      · rintro ⟨fault, rfl, relative⟩
        have same := checked.symm.trans (Graph.checkPrefixes_eq_error_iff.mpr ⟨fault, rfl, relative⟩)
        cases same
        rfl
    | ok done =>
      have absolute (fault : Rdf.IriFault) : ¬graph.HasRelativeNamespace fault := fun relative => by
        rw [Graph.checkPrefixes_eq_error_iff.mpr ⟨fault, rfl, relative⟩] at checked
        cases checked
      simp [exportGraph, Graph.export, checked, absolute, bind, Except.bind, Except.mapError, pure, Except.pure]
  | nQuads => simp [exportGraph, Graph.export, Except.mapError]
  | jsonLd => simp [exportGraph, Graph.export, Except.mapError]
  | _ => cases supports

end

section
variable {manual : Manual} {directory : Directory} {arguments : List String}

/-- The run builds a graph for a file of the directory, in a format that declares prefixes, and one of
the namespaces is no absolute IRI. -/
def LosesOutput (directory : Directory) (arguments : List String) (file : String)
    (fault : Rdf.IriFault) : Prop :=
  ∃ input name path graph,
    Invocation.ofArguments? false arguments = some (.build input name (some path)) ∧
    Place.ofPath path = .entry file ∧ FormatComes name (some path) (.ok .triG) ∧
    input.Compiles directory.read (.ok graph) ∧ graph.HasRelativeNamespace fault

theorem runIn_of_losesOutput {file : String} {fault : Rdf.IriFault}
    (loses : LosesOutput directory arguments file fault) :
    runIn manual directory arguments =
      (.failed (.notExported (.invalidPrefix fault)), directory.insert file ByteArray.empty) := by
  obtain ⟨input, name, path, graph, asked, here, comes, compiles, relative⟩ := loses
  have chosen : outputFormat name (some path) = .ok .triG := outputFormat_eq_ok_iff.mpr ⟨comes, rfl⟩
  have built := Input.graphFrom_eq_ok_iff.mpr compiles
  have unexported : exportGraph graph .triG = .error (.notExported (.invalidPrefix fault)) :=
    (exportGraph_eq_error_iff rfl).mpr ⟨rfl, fault, rfl, relative⟩
  have written := @writeGraph_written directory graph .triG path
  rw [runIn_of_invocation asked, build_run, chosen, built]
  dsimp only
  generalize (writeGraph Directory.access graph .triG path).run.run directory = outcome at written
  cases written with
  | refused elsewhere => exact absurd here (elsewhere file)
  | emptied there failed =>
    cases here.symm.trans there
    cases unexported.symm.trans failed
    rfl
  | done there exported => cases unexported.symm.trans exported

theorem losesOutput_of_unexported {input : Input} {name : Option String} {path file : String}
    {format : Format} {graph : Graph} {failure : Failure}
    (asked : Invocation.ofArguments? false arguments = some (.build input name (some path)))
    (here : Place.ofPath path = .entry file) (chosen : outputFormat name (some path) = .ok format)
    (built : input.graphFrom directory.read = .ok graph)
    (unexported : exportGraph graph format = .error failure) :
    ∃ fault, LosesOutput directory arguments file fault := by
  obtain ⟨comes, supports⟩ := outputFormat_eq_ok_iff.mp chosen
  obtain ⟨rfl, fault, _, relative⟩ := (exportGraph_eq_error_iff supports).mp unexported
  exact ⟨fault, input, name, path, graph, asked, here, comes, Input.graphFrom_eq_ok_iff.mp built, relative⟩

theorem losesOutput_of_changed (failed : (runIn manual directory arguments).1.exitCode ≠ 0)
    (changed : (runIn manual directory arguments).2 ≠ directory) :
    ∃ file fault, LosesOutput directory arguments file fault := by
  cases asked : Invocation.ofArguments? false arguments with
  | none => exact absurd (congrArg Prod.snd (runIn_of_misuse asked)) changed
  | some invocation =>
    have unchanged {result : Except Failure String}
        (yields : Yields (invocation.execute manual Directory.access) directory result) : False :=
      changed (congrArg Prod.snd (runIn_of_yields asked yields))
    cases invocation with
    | version => exact absurd (yields_of_except (.ok _)) unchanged
    | help topic full => exact absurd (yields_of_except (.ok _)) unchanged
    | summary input => exact absurd (yields_summary input) unchanged
    | build input name output =>
      cases output with
      | none => exact absurd (yields_build input name) unchanged
      | some path =>
        have result := @build_run manual directory input name path
        cases chosen : outputFormat name (some path) with
        | error failure =>
          rw [chosen] at result
          exact (unchanged result).elim
        | ok format =>
          cases built : input.graphFrom directory.read with
          | error failure =>
            rw [chosen, built] at result
            exact (unchanged result).elim
          | ok graph =>
            have written := @writeGraph_written directory graph format path
            rw [runIn_of_invocation asked, build_run, chosen, built] at failed changed
            dsimp only at failed changed
            generalize (writeGraph Directory.access graph format path).run.run directory = outcome
              at written failed changed
            cases written with
            | refused elsewhere => exact absurd rfl changed
            | done there exported => exact absurd rfl failed
            | emptied there unexported =>
              exact ⟨_, losesOutput_of_unexported asked there chosen built unexported⟩

/-- A failing run leaves the directory as it was, unless it loses its output. Then the output file is
empty, or there is an empty one now. -/
theorem run_failed (failed : (runIn manual directory arguments).1.exitCode ≠ 0) :
    ((∀ file fault, ¬LosesOutput directory arguments file fault) →
      (runIn manual directory arguments).2 = directory) ∧
    ∀ file fault, LosesOutput directory arguments file fault → runIn manual directory arguments =
      (.failed (.notExported (.invalidPrefix fault)), directory.insert file ByteArray.empty) := by
  refine ⟨fun kept => ?_, fun file fault loses => runIn_of_losesOutput loses⟩
  refine Classical.byContradiction fun changed => ?_
  obtain ⟨file, fault, loses⟩ := losesOutput_of_changed failed changed
  exact kept file fault loses

end

/-! A plan that binds a prefix to a relative IRI. -/

def filmPlan : String :=
  "\x7b\"prefixes\": \x7b\"film\": \"films/\"\x7d, \"plan\": [\x7b\"context\": 0, " ++
    "\"pattern\": [\"?film\", \"a\", \"<http://ex.org/Film>\"], " ++
    "\"paths\": [\x7b\"steps\": [], \"seeds\": [\"http://ex.org/film1\"]\x7d]\x7d]\x7d"

def filmVocabulary : String :=
  "<http://ex.org/Film> a <http://www.w3.org/2002/07/owl#Class> ."

def filmFiles : Directory :=
  .ofList [("plan.json", filmPlan.toUTF8), ("v.ttl", filmVocabulary.toUTF8), ("out.trig", "old".toUTF8)]

def filmArguments : List String :=
  ["build", "--plan", "plan.json", "--vocabulary", "v.ttl", "--root", "?film", "--output", "out.trig"]

def noManual : Manual := fun _ _ => ""

def filmInput : Input := ⟨"plan.json", "v.ttl", .texts ["?film"]⟩

theorem losesOutput_film : LosesOutput filmFiles filmArguments "out.trig" .noScheme := by
  have built : (filmInput.graphFrom filmFiles.read).map (·.prefixes.values) = .ok ["films/"] := by
    decide +kernel
  obtain ⟨graph, built, bound⟩ := map_eq_ok.mp built
  have relative : graph.HasRelativeNamespace .noScheme := by
    refine ⟨[], "films/", [], by rw [bound]; rfl, by simp, ?_, ?_⟩
    · decide
    · decide
  have comes : FormatComes none (some "out.trig") (.ok .triG) := formatComes_iff.mpr (by decide +kernel)
  exact ⟨filmInput, none, "out.trig", graph, by decide +kernel, by decide +kernel, comes,
    Input.graphFrom_eq_ok_iff.mp built, relative⟩

/-- The run fails, and the document that was in the output file is gone. -/
theorem run_empties_film :
    (runIn noManual filmFiles filmArguments).1 = .failed (.notExported (.invalidPrefix .noScheme)) ∧
    (runIn noManual filmFiles filmArguments).1.exitCode = 1 ∧
    (Failure.notExported (.invalidPrefix .noScheme)).message = "No scheme found in an absolute IRI" ∧
    OrderedMap.find? filmFiles "out.trig" = some "old".toUTF8 ∧
    OrderedMap.find? (runIn noManual filmFiles filmArguments).2 "out.trig" = some ByteArray.empty := by
  rw [runIn_of_losesOutput losesOutput_film]
  decide +kernel

theorem run_failed_film : (runIn noManual filmFiles filmArguments).1.exitCode ≠ 0 ∧
    LosesOutput filmFiles filmArguments "out.trig" .noScheme ∧
    runIn noManual filmFiles filmArguments = (.failed (.notExported (.invalidPrefix .noScheme)),
      filmFiles.insert "out.trig" ByteArray.empty) := by
  have failed : (runIn noManual filmFiles filmArguments).1.exitCode ≠ 0 := by
    rw [runIn_of_losesOutput losesOutput_film]
    decide
  exact ⟨failed, losesOutput_film, (run_failed failed).2 "out.trig" .noScheme losesOutput_film⟩

end Command
end PlanGraph
