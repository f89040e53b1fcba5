import PlanGraph.Proofs.Command.FailedRuns
import PlanGraph.Proofs.Command.Stages

/-! The command as a pipeline of phases. A run succeeds if every phase of what is asked for does, and
otherwise it reports the failure of the first phase that has one and prints nothing. -/

set_option autoImplicit false
namespace PlanGraph.Command
open Rdf (Format)

inductive Phase
  | format
  | datasets
  | plan
  | vocabulary
  | roots
  | graph
  | document
deriving DecidableEq, Repr

def Input.phases : List Phase := [.plan, .vocabulary, .roots, .graph]

namespace Invocation

def phases : Invocation → List Phase
  | .version => []
  | .help _ _ => []
  | .build _ _ _ => [.format, .datasets] ++ Input.phases ++ [.document]
  | .summary _ => Input.phases

def input? : Invocation → Option Input
  | .version => none
  | .help _ _ => none
  | .build input _ _ => some input
  | .summary input => some input

end Invocation

/-- The input is compiled without a failure, and exporting the graph then has the result. -/
def Input.Exports (read : String → FileContent) (input : Input) (name output : Option String)
    (result : Except ExportError String) : Prop :=
  ∃ format graph, FormatComes name output (.ok format) ∧ input.Compiles read (.ok graph) ∧
    graph.export format = result

def verdict {α : Type} (result : Except Failure α) : Except Failure Unit := result.map fun _ => ()

/-- The output goes to standard output or to a file of the directory. -/
def IsWritable (output : Option String) : Prop :=
  ∀ path ∈ output, ∃ file, Place.ofPath path = .entry file

/-- What a phase comes to. It can only be told if the phases that it builds on succeed. -/
inductive Invocation.Comes (directory : Directory) :
    Invocation → Phase → Except Failure Unit → Prop
  | format {input : Input} {name output : Option String} {result : Except Failure Format}
      (chooses : FormatComes name output result) :
      Comes directory (.build input name output) .format (verdict result)
  | datasets {input : Input} {name output : Option String} {format : Format}
      (chosen : FormatComes name output (.ok format)) (fits : format ∈ [.jsonLd, .nQuads, .triG]) :
      Comes directory (.build input name output) .datasets (.ok ())
  | noDatasets {input : Input} {name output : Option String} {format : Format}
      (chosen : FormatComes name output (.ok format)) (misfits : format ∉ [.jsonLd, .nQuads, .triG]) :
      Comes directory (.build input name output) .datasets (.error (.noNamedGraphs format))
  | plan {invocation : Invocation} {input : Input} {result : Except Failure Plan}
      (asks : invocation.input? = some input)
      (decodes : PlanComes input.plan (directory.read input.plan) result) :
      Comes directory invocation .plan (verdict result)
  | vocabulary {invocation : Invocation} {input : Input} {result : Except Failure Hierarchy}
      (asks : invocation.input? = some input)
      (declares : VocabularyComes input.vocabulary (directory.read input.vocabulary) result) :
      Comes directory invocation .vocabulary (verdict result)
  | roots {invocation : Invocation} {input : Input} {plan : Plan} {result : Except Failure Roots}
      (asks : invocation.input? = some input)
      (decoded : PlanComes input.plan (directory.read input.plan) (.ok plan))
      (names : input.roots.Comes directory.read plan.prefixes result) :
      Comes directory invocation .roots (verdict result)
  | graph {invocation : Invocation} {input : Input} {result : Except UnknownType Graph}
      (asks : invocation.input? = some input) (compiles : input.Compiles directory.read result) :
      Comes directory invocation .graph (verdict (result.mapError .unknownType))
  | document {input : Input} {name output : Option String} {result : Except ExportError String}
      (writable : IsWritable output) (exports : input.Exports directory.read name output result) :
      Comes directory (.build input name output) .document (verdict (result.mapError .notExported))
  | noFile {input : Input} {name : Option String} {path : String} {graph : Graph}
      (elsewhere : ∀ file, Place.ofPath path ≠ .entry file)
      (compiles : input.Compiles directory.read (.ok graph)) :
      Comes directory (.build input name (some path)) .document (.error (.notCreated path))

inductive Invocation.Stops (directory : Directory) (invocation : Invocation) : List Phase → Failure → Prop
  | here {phase : Phase} {rest : List Phase} {failure : Failure}
      (fails : invocation.Comes directory phase (.error failure)) :
      Stops directory invocation (phase :: rest) failure
  | later {phase : Phase} {rest : List Phase} {failure : Failure}
      (succeeds : invocation.Comes directory phase (.ok ())) (stops : Stops directory invocation rest failure) :
      Stops directory invocation (phase :: rest) failure

inductive Invocation.Finishes (manual : Manual) (directory : Directory) :
    Invocation → Outcome × Directory → Prop
  | version : Finishes manual directory .version (.finished "rdf-fragments 0.1.0\n", directory)
  | help {topic : Topic} {full : Bool} :
      Finishes manual directory (.help topic full) (.finished (manual topic full), directory)
  | outlined {input : Input} {graph : Graph} (compiles : input.Compiles directory.read (.ok graph)) :
      Finishes manual directory (.summary input) (.finished graph.outline, directory)
  | printed {input : Input} {name : Option String} {text : String}
      (exports : input.Exports directory.read name none (.ok text)) :
      Finishes manual directory (.build input name none) (.finished text, directory)
  | stored {input : Input} {name : Option String} {path file text : String}
      (here : Place.ofPath path = .entry file)
      (exports : input.Exports directory.read name (some path) (.ok text)) :
      Finishes manual directory (.build input name (some path))
        (.finished "", directory.insert file text.toUTF8)

/-! What a phase comes to is certain. -/

section
variable {manual : Manual} {read : String → FileContent} {directory : Directory}
  {invocation : Invocation} {input : Input}

theorem Input.Exports.unique {name output : Option String} {first second : Except ExportError String}
    (exports : input.Exports read name output first) (also : input.Exports read name output second) :
    first = second := by
  obtain ⟨format, graph, chosen, compiles, rfl⟩ := exports
  obtain ⟨_, _, chosenAgain, compilesAgain, rfl⟩ := also
  cases chosen.unique chosenAgain
  cases compiles.unique compilesAgain
  rfl

theorem not_isWritable {path : String} (elsewhere : ∀ file, Place.ofPath path ≠ .entry file) :
    ¬IsWritable (some path) := by
  intro writable
  obtain ⟨file, here⟩ := writable path rfl
  exact elsewhere file here

theorem Invocation.Comes.unique {phase : Phase} {first second : Except Failure Unit}
    (comes : invocation.Comes directory phase first) (also : invocation.Comes directory phase second) :
    first = second := by
  cases comes with
  | format chooses =>
    cases also with
    | format again => rw [chooses.unique again]
  | datasets chosen fits =>
    cases also with
    | datasets => rfl
    | noDatasets again misfits =>
      cases chosen.unique again
      exact absurd fits misfits
  | noDatasets chosen misfits =>
    cases also with
    | datasets again fits =>
      cases chosen.unique again
      exact absurd fits misfits
    | noDatasets again =>
      cases chosen.unique again
      rfl
  | plan asks decodes =>
    cases also with
    | plan again decodesAgain =>
      cases asks.symm.trans again
      rw [decodes.unique decodesAgain]
  | vocabulary asks declares =>
    cases also with
    | vocabulary again declaresAgain =>
      cases asks.symm.trans again
      rw [declares.unique declaresAgain]
  | roots asks decoded names =>
    cases also with
    | roots again decodedAgain namesAgain =>
      cases asks.symm.trans again
      cases decoded.unique decodedAgain
      rw [names.unique namesAgain]
  | graph asks compiles =>
    cases also with
    | graph again compilesAgain =>
      cases asks.symm.trans again
      rw [compiles.unique compilesAgain]
  | document writable exports =>
    cases also with
    | document _ exportsAgain => rw [exports.unique exportsAgain]
    | noFile elsewhere => exact absurd writable (not_isWritable elsewhere)
  | noFile elsewhere =>
    cases also with
    | document writable => exact absurd writable (not_isWritable elsewhere)
    | noFile => rfl

theorem Invocation.Stops.unique {phases : List Phase} {first second : Failure}
    (stops : invocation.Stops directory phases first) (also : invocation.Stops directory phases second) :
    first = second := by
  induction stops with
  | here fails =>
    cases also with
    | here again => cases fails.unique again; rfl
    | later succeeds _ => cases fails.unique succeeds
  | later succeeds _ ih =>
    cases also with
    | here fails => cases succeeds.unique fails
    | later _ rest => exact ih rest

theorem Invocation.Stops.fails {phases : List Phase} {failure : Failure}
    (stops : invocation.Stops directory phases failure) :
    ¬∀ phase ∈ phases, invocation.Comes directory phase (.ok ()) := by
  intro all
  induction stops with
  | here fails => cases fails.unique (all _ List.mem_cons_self)
  | later _ _ ih => exact ih fun phase member => all phase (List.mem_cons_of_mem _ member)

theorem Invocation.Stops.append {front : List Phase} {failure : Failure}
    (stops : invocation.Stops directory front failure) (back : List Phase) :
    invocation.Stops directory (front ++ back) failure := by
  induction stops with
  | here fails => exact .here fails
  | later succeeds _ ih => exact .later succeeds ih

theorem Invocation.Stops.after {front back : List Phase} {failure : Failure}
    (succeed : ∀ phase ∈ front, invocation.Comes directory phase (.ok ()))
    (stops : invocation.Stops directory back failure) :
    invocation.Stops directory (front ++ back) failure := by
  induction front with
  | nil => exact stops
  | cons phase rest ih =>
    obtain ⟨succeeds, later⟩ := List.forall_mem_cons.mp succeed
    exact .later succeeds (ih later)

/-! What a run does is what its phases come to. -/

theorem Invocation.graph_cases (directory : Directory) (asks : invocation.input? = some input) :
    (∃ graph, input.graphFrom directory.read = .ok graph ∧
      ∀ phase ∈ Input.phases, invocation.Comes directory phase (.ok ())) ∨
    ∃ failure, input.graphFrom directory.read = .error failure ∧
      invocation.Stops directory Input.phases failure := by
  have first := planComes_iff.mpr (Eq.refl (decodePlan input.plan (directory.read input.plan)))
  have second := vocabularyComes_iff.mpr
    (Eq.refl (decodeVocabulary input.vocabulary (directory.read input.vocabulary)))
  have plan := Comes.plan asks first
  have vocabulary := Comes.vocabulary asks second
  -- The plan and the vocabulary can be told at once, the other phases only after them.
  cases decoded : decodePlan input.plan (directory.read input.plan) with
  | error failure =>
    rw [decoded] at plan
    exact Or.inr ⟨failure, by rw [Input.graphFrom_eq, decoded]; rfl, .here plan⟩
  | ok read =>
    rw [decoded] at first plan
    cases declared : decodeVocabulary input.vocabulary (directory.read input.vocabulary) with
    | error failure =>
      rw [declared] at vocabulary
      exact Or.inr ⟨failure, by rw [Input.graphFrom_eq, decoded, declared]; rfl, .later plan (.here vocabulary)⟩
    | ok hierarchy =>
      rw [declared] at second vocabulary
      have third := RootSource.comes_iff.mpr (Eq.refl (input.roots.roots directory.read read.prefixes))
      have roots := Comes.roots asks first third
      cases named : input.roots.roots directory.read read.prefixes with
      | error failure =>
        rw [named] at roots
        have stopped : input.graphFrom directory.read = .error failure := by
          rw [Input.graphFrom_eq, decoded, declared]
          exact congrArg (· >>= compile read hierarchy) named
        exact Or.inr ⟨failure, stopped, .later plan (.later vocabulary (.here roots))⟩
      | ok places =>
        rw [named] at third roots
        have compiles : input.Compiles directory.read (read.compile hierarchy places) :=
          ⟨read, hierarchy, places, ⟨first, second, third⟩, rfl⟩
        have graph := Comes.graph asks compiles
        have whole := Input.graphFrom_of_compiles compiles
        cases compiled : read.compile hierarchy places with
        | error error =>
          rw [compiled] at graph whole
          exact Or.inr ⟨.unknownType error, whole, .later plan (.later vocabulary (.later roots (.here graph)))⟩
        | ok made =>
          rw [compiled] at graph whole
          refine Or.inl ⟨made, whole, ?_⟩
          simp only [Input.phases, List.forall_mem_cons]
          exact ⟨plan, vocabulary, roots, graph, List.forall_mem_nil _⟩

/-- A format is chosen and fit for datasets, or the run stops before it reads anything. -/
theorem Invocation.format_cases (directory : Directory) (input : Input) (name output : Option String) :
    (∃ format, FormatComes name output (.ok format) ∧ outputFormat name output = .ok format ∧
      ∀ phase ∈ [Phase.format, .datasets], Comes directory (.build input name output) phase (.ok ())) ∨
    ∃ failure, outputFormat name output = .error failure ∧
      Stops directory (.build input name output) [.format, .datasets] failure := by
  have chooses := formatComes_iff.mpr (Eq.refl (chosenFormat name output))
  have first : Comes directory (.build input name output) .format _ := .format chooses
  rw [outputFormat_eq]
  cases chosen : chosenFormat name output with
  | error failure =>
    rw [chosen] at first
    exact Or.inr ⟨failure, rfl, .here first⟩
  | ok format =>
    rw [chosen] at chooses first
    cases supports : format.supportsDatasets with
    | false =>
      have misfits : format ∉ [.jsonLd, .nQuads, .triG] := by
        cases format <;> first | decide | cases supports
      have second : Comes directory (.build input name output) .datasets _ := .noDatasets chooses misfits
      exact Or.inr ⟨.noNamedGraphs format, by simp [bind, Except.bind, supports], .later first (.here second)⟩
    | true =>
      have fits : format ∈ [.jsonLd, .nQuads, .triG] := by
        cases format <;> first | decide | cases supports
      have second : Comes directory (.build input name output) .datasets _ := .datasets chooses fits
      refine Or.inl ⟨format, chooses, by simp [bind, Except.bind, supports], ?_⟩
      simp only [List.forall_mem_cons]
      exact ⟨first, second, List.forall_mem_nil _⟩

theorem runIn_of_unmade {name output : Option String} {failure : Failure} {arguments : List String}
    (asked : Invocation.ofArguments? false arguments = some (.build input name output))
    (fails : (do let _ ← outputFormat name output; input.graphFrom directory.read) = .error failure) :
    (runIn manual directory arguments).1 = .failed failure := by
  -- The document's place is not looked at before there is a graph.
  cases chosen : outputFormat name output with
  | error refusal =>
    rw [chosen] at fails
    cases fails
    cases output with
    | none => rw [runIn_of_yields asked (yields_build input name), chosen]; rfl
    | some path => rw [runIn_of_invocation asked, build_run, chosen]; rfl
  | ok format =>
    rw [chosen] at fails
    replace fails : input.graphFrom directory.read = .error failure := fails
    cases output with
    | none => rw [runIn_of_yields asked (yields_build input name), chosen, fails]; rfl
    | some path => rw [runIn_of_invocation asked, build_run, chosen, fails]; rfl

theorem Invocation.document_cases {name output : Option String} {format : Format} {graph : Graph}
    {arguments : List String}
    (asked : Invocation.ofArguments? false arguments = some (.build input name output))
    (chosen : FormatComes name output (.ok format)) (accepted : outputFormat name output = .ok format)
    (built : input.graphFrom directory.read = .ok graph) :
    Comes directory (.build input name output) .document (.ok ()) ∧
      Finishes manual directory (.build input name output) (runIn manual directory arguments) ∨
    ∃ failure, Comes directory (.build input name output) .document (.error failure) ∧
      (runIn manual directory arguments).1 = .failed failure := by
  have exports : input.Exports directory.read name output (graph.export format) :=
    ⟨format, graph, chosen, Input.graphFrom_eq_ok_iff.mp built, rfl⟩
  cases output with
  | none =>
    have runs : runIn manual directory arguments = _ := runIn_of_yields asked (yields_build input name)
    rw [accepted, built] at runs
    dsimp only [bind, Except.bind, exportGraph] at runs
    have document := Comes.document (by simp [IsWritable]) exports
    cases exported : graph.export format with
    | error error =>
      rw [exported] at runs document
      exact Or.inr ⟨.notExported error, document, congrArg Prod.fst runs⟩
    | ok text =>
      rw [exported] at runs document exports
      exact Or.inl ⟨document, runs ▸ .printed exports⟩
  | some path =>
    have runs : runIn manual directory arguments = _ := runIn_of_invocation asked
    have written : Written directory graph format path _ := writeGraph_written graph format path
    rw [build_run, accepted, built] at runs
    dsimp only at runs
    -- From here on the run is known only by what `Written` says of it.
    generalize (writeGraph Directory.access graph format path).run.run directory = outcome at written runs
    cases written with
    | refused elsewhere =>
      have document : Comes directory (.build input name (some path)) .document _ :=
        .noFile elsewhere (Input.graphFrom_eq_ok_iff.mp built)
      exact Or.inr ⟨.notCreated path, document, congrArg Prod.fst runs⟩
    | @emptied file failure here unexported =>
      have document := Comes.document (by simp [IsWritable, here]) exports
      rw [show (graph.export format).mapError .notExported = .error failure from unexported] at document
      exact Or.inr ⟨failure, document, congrArg Prod.fst runs⟩
    | @done file text here exported =>
      have document := Comes.document (by simp [IsWritable, here]) exports
      rw [mapError_eq_ok.mp exported] at document exports
      exact Or.inl ⟨document, runs ▸ .stored here exports⟩

theorem run_cases (manual : Manual) (directory : Directory) {arguments : List String}
    (asked : Invocation.ofArguments? false arguments = some invocation) :
    (∀ phase ∈ invocation.phases, invocation.Comes directory phase (.ok ())) ∧
      invocation.Finishes manual directory (runIn manual directory arguments) ∨
    ∃ failure, invocation.Stops directory invocation.phases failure ∧
      (runIn manual directory arguments).1 = .failed failure := by
  cases invocation with
  | version =>
    have runs : runIn manual directory arguments = _ := runIn_of_yields asked (yields_of_except (.ok _))
    rw [runs]
    exact Or.inl ⟨List.forall_mem_nil _, .version⟩
  | help topic full =>
    have runs : runIn manual directory arguments = _ := runIn_of_yields asked (yields_of_except (.ok _))
    rw [runs]
    exact Or.inl ⟨List.forall_mem_nil _, .help⟩
  | summary input =>
    have runs : runIn manual directory arguments = _ := runIn_of_yields asked (yields_summary input)
    have asks : (Invocation.summary input).input? = some input := rfl
    rcases Invocation.graph_cases directory asks with
      ⟨graph, built, succeed⟩ | ⟨failure, built, stops⟩
    · rw [built] at runs
      exact Or.inl ⟨succeed, runs ▸ .outlined (Input.graphFrom_eq_ok_iff.mp built)⟩
    · rw [built] at runs
      exact Or.inr ⟨failure, stops, congrArg Prod.fst runs⟩
  | build input name output =>
    have asks : (Invocation.build input name output).input? = some input := rfl
    rcases Invocation.format_cases directory input name output with
      ⟨format, chosen, accepted, chooses⟩ | ⟨failure, refused, stops⟩
    · rcases Invocation.graph_cases directory asks with
        ⟨graph, built, succeed⟩ | ⟨failure, built, stops⟩
      · have front := List.forall_mem_append.mpr ⟨chooses, succeed⟩
        rcases Invocation.document_cases asked chosen accepted built with
          ⟨document, finishes⟩ | ⟨failure, document, runs⟩
        · exact Or.inl ⟨List.forall_mem_append.mpr ⟨front, List.forall_mem_singleton.mpr document⟩, finishes⟩
        · exact Or.inr ⟨failure, .after front (.here document), runs⟩
      · have failed : (runIn manual directory arguments).1 = .failed failure :=
          runIn_of_unmade asked (by rw [accepted, built]; rfl)
        exact Or.inr ⟨failure, .append (.after chooses stops) _, failed⟩
    · have failed : (runIn manual directory arguments).1 = .failed failure :=
        runIn_of_unmade asked (by rw [refused]; rfl)
      exact Or.inr ⟨failure, .append (.append stops _) _, failed⟩

/-- A run exits with 0 if each of its phases succeeds, and then does what is asked for. Otherwise it
reports the first failure and prints nothing. -/
theorem run_pipeline {arguments : List String}
    (asked : Invocation.ofArguments? false arguments = some invocation) :
    ((runIn manual directory arguments).1.exitCode = 0 ↔
      ∀ phase ∈ invocation.phases, invocation.Comes directory phase (.ok ())) ∧
    (∀ failure, (runIn manual directory arguments).1 = .failed failure ↔
      invocation.Stops directory invocation.phases failure) ∧
    ((runIn manual directory arguments).1.exitCode = 0 →
      invocation.Finishes manual directory (runIn manual directory arguments)) ∧
    ((runIn manual directory arguments).1.exitCode ≠ 0 → (runIn manual directory arguments).1.output = "") := by
  rcases run_cases manual directory asked with ⟨succeed, finishes⟩ | ⟨failure, stops, failed⟩
  · obtain ⟨output, printed⟩ : ∃ output, (runIn manual directory arguments).1 = .finished output := by
      generalize runIn manual directory arguments = result at finishes
      cases finishes <;> exact ⟨_, rfl⟩
    rw [printed]
    refine ⟨iff_of_true rfl succeed, fun failure => iff_of_false (nomatch ·) fun stops => ?_,
      fun _ => finishes, fun other => absurd rfl other⟩
    exact stops.fails succeed
  · rw [failed]
    refine ⟨iff_of_false (nomatch ·) stops.fails, fun other => ⟨fun same => ?_, fun again => ?_⟩,
      (nomatch ·), fun _ => rfl⟩
    · cases same
      exact stops
    · rw [stops.unique again]

end

/-! The films once more, with a query for their roots and with a format that no output file tells. -/

def filmQueryFiles : Directory :=
  filmFiles.insert "q.rq" "SELECT * WHERE \x7b ?film a <http://ex.org/Film> \x7d".toUTF8

def filmQueryInput : Input := ⟨"plan.json", "v.ttl", .query "q.rq"⟩

def filmOptions : List String := ["--plan", "plan.json", "--vocabulary=v.ttl", "-qq.rq"]

def filmMediaType : String := "Text/x-nquads; charset=UTF-8"

def filmOutline : String :=
  "SearchSpace 0 definedBy tp0\n" ++
    "TriplePattern tp0: ?film <http://www.w3.org/1999/02/22-rdf-syntax-ns#type> <http://ex.org/Film>\n" ++
    "SearchTree c3cf7ffa8e43f638133f115c488d2228 length: 0\n" ++
    "  fromType: <http://ex.org/Film>\n  hasSeed: <http://ex.org/film1>\n" ++
    "  #end [<http://ex.org/Film>] byPattern: tp0\n"

/-- The variable of the query is the root, whatever the prefixes of the plan are. -/
theorem filmQuery_comes (prefixes : Prefixes) :
    filmQueryInput.roots.Comes filmQueryFiles.read prefixes (.ok ⟨.ofList ["film"], ∅⟩) :=
  .query (queryComes_iff.mpr (by decide +kernel))

/-- Building the films into a TriG file stops at the document, the last phase of it. The roots can be those of
a query; the summary finishes then, and so does a build in the format that is asked for. -/
theorem run_pipeline_film :
    ((Invocation.build filmInput none (some "out.trig")).Stops filmFiles
        [.format, .datasets, .plan, .vocabulary, .roots, .graph, .document]
        (.notExported (.invalidPrefix .noScheme)) ∧
      (runIn noManual filmFiles filmArguments).1 = .failed (.notExported (.invalidPrefix .noScheme))) ∧
    filmQueryInput.roots.Comes filmQueryFiles.read ∅ (.ok ⟨.ofList ["film"], ∅⟩) ∧
    ((Invocation.summary filmQueryInput).Finishes noManual filmQueryFiles
        (runIn noManual filmQueryFiles ("summary" :: filmOptions)) ∧
      (runIn noManual filmQueryFiles ("summary" :: filmOptions)).1 = .finished filmOutline) ∧
    FormatComes (some filmMediaType) none (.ok .nQuads) ∧
    (Invocation.build filmQueryInput (some filmMediaType) none).Finishes noManual filmQueryFiles
      (runIn noManual filmQueryFiles ("build" :: "--format" :: filmMediaType :: filmOptions)) := by
  have builds : Invocation.ofArguments? false filmArguments =
      some (.build filmInput none (some "out.trig")) := by decide +kernel
  have summarizes : Invocation.ofArguments? false ("summary" :: filmOptions) =
      some (.summary filmQueryInput) := by decide +kernel
  have converts : Invocation.ofArguments? false ("build" :: "--format" :: filmMediaType :: filmOptions) =
      some (.build filmQueryInput (some filmMediaType) none) := by decide +kernel
  have failed : (runIn noManual filmFiles filmArguments).1 =
      .failed (.notExported (.invalidPrefix .noScheme)) :=
    congrArg Prod.fst (runIn_of_losesOutput losesOutput_film)
  have outlined : (runIn noManual filmQueryFiles ("summary" :: filmOptions)).1 = .finished filmOutline := by
    decide +kernel
  have printed : (runIn noManual filmQueryFiles ("build" :: "--format" :: filmMediaType :: filmOptions)).1.exitCode
      = 0 := by decide +kernel
  refine ⟨⟨((run_pipeline builds).2.1 _).mp failed, failed⟩, filmQuery_comes ∅, ⟨?_, outlined⟩,
    formatComes_iff.mpr (by decide +kernel), (run_pipeline converts).2.2.1 printed⟩
  exact (run_pipeline summarizes).2.2.1 (congrArg Outcome.exitCode outlined)

end PlanGraph.Command
