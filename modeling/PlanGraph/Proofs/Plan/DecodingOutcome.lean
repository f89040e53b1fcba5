import PlanGraph.Proofs.Plan.DocumentReading
import PlanGraph.Proofs.Plan.Faults

/-! What decoding a text comes to. A text that is not spelled like a plan is rejected as a whole, whatever
its terms are; else the first faulty item decides on the error; and without one the plan has the entries,
cycles, paths, steps and seeds of the document, in their order and with their names expanded. -/

set_option autoImplicit false
namespace PlanGraph
open Text

section
variable {α β ε : Type} {Relates : α → β → Prop} {inputs : List α} {outputs : List β}

theorem forall₂_iff_map {view : α → β} (same : ∀ input output, Relates input output ↔ view input = output) :
    List.Forall₂ Relates inputs outputs ↔ inputs.map view = outputs := by
  have relation : Relates = fun input output => view input = output :=
    funext fun input => funext fun output => propext (same input output)
  rw [relation, ← List.forall₂_map_left_iff (R := Eq), List.forall₂_eq_eq_eq]

theorem forall₂_iff_mapM {compute : α → Except ε β}
    (same : ∀ input output, Relates input output ↔ compute input = .ok output) :
    List.Forall₂ Relates inputs outputs ↔ inputs.mapM compute = .ok outputs := by
  constructor
  · intro related
    refine mapM_of_forall₂ (related.flip) fun output _ input relates => ?_
    exact (same input output).mp relates
  · intro succeeds
    induction inputs generalizing outputs with
    | nil =>
      cases succeeds
      exact .nil
    | cons first rest ih =>
      rw [List.mapM_cons] at succeeds
      obtain ⟨output, head, succeeds⟩ := bind_eq_ok.mp succeeds
      obtain ⟨others, tail, succeeds⟩ := bind_eq_ok.mp succeeds
      cases succeeds
      exact .cons ((same first output).mpr head) (ih tail)

end

namespace Document

/-! ## Terms -/

/-- The IRI that a term stands for: the type predicate for `a`, else its name expanded, in both cases
without the white space around it. -/
def IriOf (prefixes : Prefixes) (text : String) (iri : Iri) : Prop :=
  if trim text.toList = ['a'] then iri = Rdf.Vocabulary.rdfType
  else iri = prefixes.expand (String.ofList (trim text.toList))

theorem iriOf_of_ofText {prefixes : Prefixes} {position : Position} {text : String} {iri : Iri}
    (read : PatternTerm.ofText prefixes position text = .ok (.iri iri)) : IriOf prefixes text iri := by
  unfold PatternTerm.ofText at read
  dsimp only at read
  unfold IriOf
  split at read
  · split at read <;> cases read
  · split at read
    · next same =>
      rw [if_pos same]
      simpa [PatternTerm.iri, eq_comm] using read
    · next other =>
      rw [if_neg other]
      split at read
      · split at read <;> cases read
      · split at read
        · cases read
        · simpa [PatternTerm.iri, eq_comm] using read

structure TermYields (prefixes : Prefixes) (position : Position) (text : String) (term : PatternTerm) :
    Prop where
  read : PatternTerm.ofText prefixes position text = .ok term
  admitted : position.Admits term
  expanded : ∀ iri, term = .iri iri → IriOf prefixes text iri

theorem termYields_iff {prefixes : Prefixes} {position : Position} {text : String} {term : PatternTerm} :
    TermYields prefixes position text term ↔ PatternTerm.ofTextAt prefixes position text = .ok term := by
  rw [PatternTerm.ofTextAt_eq_ok, Position.fits_iff]
  constructor
  · exact fun yields => ⟨yields.read, yields.admitted⟩
  · rintro ⟨read, admitted⟩
    exact ⟨read, admitted, fun iri same => iriOf_of_ofText (same ▸ read)⟩

/-! ## Structures -/

structure Step.Yields (prefixes : Prefixes) (written : Step) (step : PathStep) : Prop where
  property : step.property = prefixes.expand written.property
  type : step.type = prefixes.expand written.type

structure Cycle.Yields (prefixes : Prefixes) (written : Cycle) (cycle : PlannedCycle) : Prop where
  id : cycle.id = written.id
  steps : List.Forall₂ (Step.Yields prefixes) written.steps cycle.steps

structure SeedYields (seed : String) (iri : Iri) : Prop where
  names : Names seed iri
  absolute : Rdf.isAbsoluteIri iri.toList = true

structure Path.Yields (prefixes : Prefixes) (written : Path) (path : PlannedPath) : Prop where
  steps : List.Forall₂ (Step.Yields prefixes) written.steps path.steps
  seeds : List.Forall₂ SeedYields written.seeds path.seeds
  check : path.check = written.check

structure Entry.Yields (prefixes : Prefixes) (written : Entry) (entry : PlanEntry) : Prop where
  context : entry.context = written.context
  subject : TermYields prefixes .subject written.subject entry.pattern.subject
  predicate : ∃ iri, entry.pattern.predicate = .iri iri ∧
    TermYields prefixes .predicate written.predicate (.iri iri)
  object : TermYields prefixes .object written.object entry.pattern.object
  check : entry.check = written.check
  cycles : List.Forall₂ (Cycle.Yields prefixes) written.cycles entry.cycles
  paths : List.Forall₂ (Path.Yields prefixes) written.paths entry.paths

/-- The plan of a document. Where a prefix is bound more than once, the last binding counts. -/
structure Yields (document : Document) (plan : Plan) : Prop where
  prefixes : plan.prefixes = .ofList document.prefixes
  entries : List.Forall₂ (Entry.Yields plan.prefixes) document.entries plan.entries

section
variable {prefixes : Prefixes}

theorem Step.yields_iff (written : Step) (step : PathStep) :
    written.Yields prefixes step ↔ written.decode prefixes = step := by
  constructor
  · rintro ⟨property, type⟩
    rw [decode, ← property, ← type]
  · rintro rfl
    exact ⟨rfl, rfl⟩

theorem Cycle.yields_iff (written : Cycle) (cycle : PlannedCycle) :
    written.Yields prefixes cycle ↔ written.decode prefixes = cycle := by
  constructor
  · rintro ⟨id, steps⟩
    rw [decode, (forall₂_iff_map Step.yields_iff).mp steps, ← id]
  · rintro rfl
    exact ⟨rfl, (forall₂_iff_map Step.yields_iff).mpr rfl⟩

theorem seedYields_iff (seed : String) (iri : Iri) : SeedYields seed iri ↔ decodeSeed seed = .ok iri := by
  rw [decodeSeed_eq_ok_iff]
  exact ⟨fun yields => ⟨yields.names, yields.absolute⟩, fun ⟨names, absolute⟩ => ⟨names, absolute⟩⟩

theorem Path.yields_iff (written : Path) (path : PlannedPath) :
    written.Yields prefixes path ↔ written.decode prefixes = .ok path := by
  unfold decode
  constructor
  · rintro ⟨steps, seeds, check⟩
    rw [(forall₂_iff_mapM seedYields_iff).mp seeds, (forall₂_iff_map Step.yields_iff).mp steps, ← check]
    rfl
  · intro succeeds
    obtain ⟨seeds, read, succeeds⟩ := bind_eq_ok.mp succeeds
    cases succeeds
    exact ⟨(forall₂_iff_map Step.yields_iff).mpr rfl, (forall₂_iff_mapM seedYields_iff).mpr read, rfl⟩

theorem ofTexts_eq_ok_iff {subject predicate object : String} {pattern : TriplePattern} :
    TriplePattern.ofTexts prefixes subject predicate object = .ok pattern ↔
      TermYields prefixes .subject subject pattern.subject ∧
      (∃ iri, pattern.predicate = .iri iri ∧ TermYields prefixes .predicate predicate (.iri iri)) ∧
      TermYields prefixes .object object pattern.object := by
  rw [ofTexts_eq]
  simp only [termYields_iff]
  constructor
  · intro read
    obtain ⟨subjectTerm, first, read⟩ := bind_eq_ok.mp read
    obtain ⟨term, second, read⟩ := bind_eq_ok.mp read
    obtain ⟨iri, rfl⟩ := Position.fits_iff.mp (PatternTerm.ofTextAt_eq_ok.mp second).2
    obtain ⟨objectTerm, third, read⟩ := bind_eq_ok.mp read
    cases read
    exact ⟨first, ⟨iri, rfl, second⟩, third⟩
  · obtain ⟨subjectTerm, predicateTerm, objectTerm⟩ := pattern
    rintro ⟨first, ⟨iri, rfl, second⟩, third⟩
    rw [first, second, third]
    rfl

theorem Entry.yields_iff (written : Entry) (entry : PlanEntry) :
    written.Yields prefixes entry ↔ written.decode prefixes = .ok entry := by
  unfold decode
  constructor
  · rintro ⟨context, subject, predicate, object, check, cycles, paths⟩
    have pattern := ofTexts_eq_ok_iff.mpr ⟨subject, predicate, object⟩
    rw [pattern, (forall₂_iff_mapM Path.yields_iff).mp paths, (forall₂_iff_map Cycle.yields_iff).mp cycles,
      ← context, ← check]
    rfl
  · intro succeeds
    obtain ⟨pattern, read, succeeds⟩ := bind_eq_ok.mp succeeds
    obtain ⟨paths, decoded, succeeds⟩ := bind_eq_ok.mp succeeds
    cases succeeds
    obtain ⟨subject, predicate, object⟩ := ofTexts_eq_ok_iff.mp (mapError_eq_ok.mp read)
    exact ⟨rfl, subject, predicate, object, rfl, (forall₂_iff_map Cycle.yields_iff).mpr rfl,
      (forall₂_iff_mapM Path.yields_iff).mpr decoded⟩

end

theorem yields_iff {document : Document} {plan : Plan} :
    document.Yields plan ↔ document.decode = .ok plan := by
  unfold decode
  dsimp only
  constructor
  · rintro ⟨prefixes, entries⟩
    rw [prefixes] at entries
    rw [(forall₂_iff_mapM Entry.yields_iff).mp entries, ← prefixes]
    rfl
  · intro succeeds
    obtain ⟨entries, decoded, succeeds⟩ := bind_eq_ok.mp succeeds
    cases succeeds
    exact ⟨rfl, (forall₂_iff_mapM Entry.yields_iff).mpr decoded⟩

end Document

/-! ## Texts -/

/-- What a text comes to: it is not spelled like a document, or the document has a first faulty item, or it
has none and yields a plan. -/
inductive Plan.DecodingOutcome (text : String) : Except PlanError Plan → Prop
  | misshapen (unspelled : ¬∃ document : Document, document.IsSpelledBy text) :
      DecodingOutcome text (.error .invalidDocument)
  | faulty {document : Document} {error : PlanError} (spelled : document.IsSpelledBy text)
      (fault : FirstFault (Document.Item.Fault (.ofList document.prefixes)) document.items error) :
      DecodingOutcome text (.error error)
  | decoded {document : Document} {plan : Plan} (spelled : document.IsSpelledBy text)
      (sound : AllSound (Document.Item.Fault (.ofList document.prefixes)) document.items)
      (yields : document.Yields plan) : DecodingOutcome text (.ok plan)

theorem Plan.ofText_of_isSpelledBy {document : Document} {text : String}
    (spelled : document.IsSpelledBy text) : Plan.ofText text = document.decode := by
  rw [Plan.ofText, Plan.ofGlyphs, Document.isSpelledBy_iff.mp spelled]

theorem Plan.ofText_of_not_isSpelledBy {text : String}
    (unspelled : ¬∃ document : Document, document.IsSpelledBy text) :
    Plan.ofText text = .error .invalidDocument := by
  rw [Plan.ofText, Plan.ofGlyphs]
  split
  · next document read => exact absurd ⟨document, Document.isSpelledBy_iff.mpr read⟩ unspelled
  · rfl

/-- Decoding comes to the one outcome of the text. -/
theorem Plan.ofText_eq_iff {text : String} {outcome : Except PlanError Plan} :
    Plan.ofText text = outcome ↔ Plan.DecodingOutcome text outcome := by
  constructor
  · rintro rfl
    by_cases shaped : ∃ document : Document, document.IsSpelledBy text
    · obtain ⟨document, spelled⟩ := shaped
      rw [ofText_of_isSpelledBy spelled]
      cases decoded : document.decode with
      | ok plan =>
        have sound := (decoded ▸ document.settles_decode).allSound
        exact .decoded spelled sound (Document.yields_iff.mpr decoded)
      | error error => exact .faulty spelled (Document.decode_eq_error_iff.mp decoded)
    · rw [ofText_of_not_isSpelledBy shaped]
      exact .misshapen shaped
  · intro comes
    cases comes with
    | misshapen unspelled => exact ofText_of_not_isSpelledBy unspelled
    | faulty spelled fault =>
      rw [ofText_of_isSpelledBy spelled]
      exact Document.decode_eq_error_iff.mpr fault
    | decoded spelled _ yields =>
      rw [ofText_of_isSpelledBy spelled]
      exact Document.yields_iff.mp yields

/-- A relative seed comes before the literal subject of a later entry. -/
example : Plan.ofText
    "\x7b\"plan\": [[1, [\"?x\", \"a\", \"y\"], [null], [], [[[], [\"r\"], null]]], [2, [\"1\", \"?p\", \"_:b\"]]]\x7d" =
      .error (.invalidSeed "r") := by decide +kernel

/-- The same with a text for the hints of the first entry, so the seed is not looked at. -/
example : Plan.ofText
    "\x7b\"plan\": [[1, [\"?x\", \"a\", \"y\"], \"\", [], [[[], [\"r\"], null]]], [2, [\"1\", \"?p\", \"_:b\"]]]\x7d" =
      .error .invalidDocument := by decide +kernel

end PlanGraph
