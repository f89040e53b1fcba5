import PlanGraph.Proofs.Description.Describable
import PlanGraph.Proofs.Plan.TermText

/-! What can be wrong with the terms and seeds of a document, and which of them decides on the error. The
items of a document stand in the order of its entries, the terms of an entry before the seeds of its paths;
decoding fails with the fault of the first item that has one, and nothing but an item makes it fail. -/

set_option autoImplicit false
namespace PlanGraph
open Text

/-! ## The first fault -/

/-- An item of the list has the fault, and those before it have none. -/
inductive FirstFault {ι ε : Type} (Fault : ι → ε → Prop) : List ι → ε → Prop
  | here {item : ι} {items : List ι} {error : ε} (fault : Fault item error) :
      FirstFault Fault (item :: items) error
  | later {item : ι} {items : List ι} {error : ε} (sound : ∀ other, ¬Fault item other)
      (rest : FirstFault Fault items error) : FirstFault Fault (item :: items) error

def AllSound {ι ε : Type} (Fault : ι → ε → Prop) (items : List ι) : Prop :=
  ∀ item ∈ items, ∀ error, ¬Fault item error

section
variable {ι ε α β : Type} {Fault : ι → ε → Prop} {first second items : List ι} {error other : ε}

theorem FirstFault.append_right (fault : FirstFault Fault first error) :
    FirstFault Fault (first ++ second) error := by
  induction fault with
  | here fault => exact .here fault
  | later sound _ ih => exact .later sound ih

theorem AllSound.append_first (sound : AllSound Fault first) (fault : FirstFault Fault second error) :
    FirstFault Fault (first ++ second) error := by
  induction first with
  | nil => exact fault
  | cons item rest ih =>
    obtain ⟨here, later⟩ := List.forall_mem_cons.mp sound
    exact .later here (ih later)

theorem FirstFault.not_allSound (fault : FirstFault Fault items error) : ¬AllSound Fault items := by
  intro sound
  induction fault with
  | here fault => exact sound _ List.mem_cons_self _ fault
  | later _ _ ih => exact ih (List.forall_mem_cons.mp sound).2

theorem FirstFault.unique (certain : ∀ item error other, Fault item error → Fault item other → error = other)
    (one : FirstFault Fault items error) (two : FirstFault Fault items other) : error = other := by
  induction one with
  | here fault =>
    cases two with
    | here also => exact certain _ _ _ fault also
    | later sound => exact absurd fault (sound _)
  | later sound _ ih =>
    cases two with
    | here also => exact absurd also (sound _)
    | later _ rest => exact ih rest

/-- A computation that succeeds if all items are sound, and fails with the first fault if one is not. -/
inductive Settles (Fault : ι → ε → Prop) (items : List ι) : Except ε α → Prop
  | ok {value : α} (sound : AllSound Fault items) : Settles Fault items (.ok value)
  | error {error : ε} (first : FirstFault Fault items error) : Settles Fault items (.error error)

theorem Settles.pure (value : α) : Settles Fault [] (pure value) := .ok (by simp [AllSound])

theorem Settles.bind {result : Except ε α} {next : α → Except ε β} (settles : Settles Fault first result)
    (continues : ∀ value, result = .ok value → Settles Fault second (next value)) :
    Settles Fault (first ++ second) (result >>= next) := by
  cases settles with
  -- What comes later is only reached if all that came before is sound.
  | @ok value sound =>
    change Settles Fault (first ++ second) (next value)
    cases outcome : next value with
    | ok output =>
      cases outcome ▸ continues value rfl with
      | ok later => exact .ok (List.forall_mem_append.mpr ⟨sound, later⟩)
    | error failure =>
      cases outcome ▸ continues value rfl with
      | error fault => exact .error (sound.append_first fault)
  | error fault => exact .error fault.append_right

theorem Settles.item_bind {item : ι} {result : Except ε α} {next : α → Except ε β}
    (settles : Settles Fault [item] result)
    (continues : ∀ value, result = .ok value → Settles Fault items (next value)) :
    Settles Fault (item :: items) (result >>= next) :=
  settles.bind continues

theorem Settles.mapM {γ : Type} {compute : γ → Except ε α} {itemsOf : γ → List ι} {inputs : List γ}
    (settles : ∀ input ∈ inputs, Settles Fault (itemsOf input) (compute input)) :
    Settles Fault (inputs.flatMap itemsOf) (inputs.mapM compute) := by
  induction inputs with
  | nil => exact .pure []
  | cons input inputs ih =>
    obtain ⟨here, later⟩ := List.forall_mem_cons.mp settles
    rw [List.flatMap_cons, List.mapM_cons]
    refine here.bind fun output _ => ?_
    rw [← List.append_nil (inputs.flatMap itemsOf)]
    exact (ih later).bind fun outputs _ => .pure (output :: outputs)

theorem Settles.allSound {value : α} (settles : Settles Fault items (.ok value : Except ε α)) :
    AllSound Fault items := by
  cases settles with
  | ok sound => exact sound

/-- If an item has one fault at most, the error says which fault is the first. -/
theorem Settles.eq_error_iff {result : Except ε α} (settles : Settles Fault items result)
    (certain : ∀ item error other, Fault item error → Fault item other → error = other) :
    result = .error error ↔ FirstFault Fault items error := by
  cases settles with
  | ok sound => exact iff_of_false (by simp) fun fault => fault.not_allSound sound
  | error first =>
    rw [Except.error.injEq]
    constructor
    · rintro rfl
      exact first
    · exact fun fault => first.unique certain fault

end

/-! ## Faults of terms and seeds -/

def Position.Admits (position : Position) (term : PatternTerm) : Prop :=
  match position with
  | .subject => (∃ name, term = .variable name) ∨ ∃ iri, term = .iri iri
  | .predicate => ∃ iri, term = .iri iri
  | .object =>
    (∃ name, term = .variable name) ∨ (∃ iri, term = .iri iri) ∨ ∃ literal, term = .fixed (.literal literal)

theorem Position.fits_iff {position : Position} {term : PatternTerm} :
    term.fits position = true ↔ position.Admits term := by
  rcases position <;> rcases term with name | iri | label | literal <;>
    simp [PatternTerm.fits, Admits, PatternTerm.iri]

namespace Document

/-- The IRI that a seed names: what its angle brackets enclose, or all of it if there are none. -/
def Names (seed : String) (iri : Iri) : Prop :=
  seed = Rdf.iriText iri ∨ (∀ inner, seed ≠ Rdf.iriText inner) ∧ iri = seed

/-- The parts of a document that decoding has to make sense of. -/
inductive Item
  | term (position : Position) (text : String)
  | seed (text : String)

/-- A term cannot be read, or is not admitted where it stands; or a seed names no absolute IRI. -/
inductive Item.Fault (prefixes : Prefixes) : Item → PlanError → Prop
  | unread {position : Position} {text : String} {error : TermError}
      (fails : PatternTerm.ofText prefixes position text = .error error) :
      Fault prefixes (.term position text) (.invalidTerm error)
  | misplaced {position : Position} {text : String} {term : PatternTerm}
      (read : PatternTerm.ofText prefixes position text = .ok term) (misfit : ¬position.Admits term) :
      Fault prefixes (.term position text) (.invalidTerm (.unsupported position term.text))
  | relative {seed : String} {iri : Iri} (names : Names seed iri)
      (relative : ¬Rdf.isAbsoluteIri iri.toList = true) : Fault prefixes (.seed seed) (.invalidSeed seed)

def Path.items (path : Path) : List Item := path.seeds.map .seed

def Entry.items (entry : Entry) : List Item :=
  [.term .subject entry.subject, .term .predicate entry.predicate, .term .object entry.object] ++
    entry.paths.flatMap Path.items

def items (document : Document) : List Item := document.entries.flatMap Entry.items

section
variable {prefixes : Prefixes} {seed : String} {iri other : Iri}

theorem Names.unique (one : Names seed iri) (two : Names seed other) : iri = other := by
  have injective {first second : Iri} (same : Rdf.iriText first = Rdf.iriText second) : first = second := by
    have chars := congrArg String.toList same
    exact String.toList_injective (by simpa [Rdf.toList_iriText] using chars)
  rcases one with rfl | ⟨bare, rfl⟩
  · rcases two with same | ⟨bare, _⟩
    · exact injective same
    · exact absurd rfl (bare iri)
  · rcases two with same | ⟨_, rfl⟩
    · exact absurd same (bare other)
    · rfl

theorem exists_names (seed : String) : ∃ iri, Names seed iri ∧ decodeSeed seed =
    if Rdf.isAbsoluteIri iri.toList = true then .ok iri else .error (.invalidSeed seed) := by
  by_cases bracketed : ∃ inner, seed = Rdf.iriText inner
  · obtain ⟨inner, rfl⟩ := bracketed
    refine ⟨inner, Or.inl rfl, ?_⟩
    rw [decodeSeed, Rdf.toList_iriText, between?_enclosed]
    simp
  · rw [not_exists] at bracketed
    refine ⟨seed, Or.inr ⟨bracketed, rfl⟩, ?_⟩
    have none : between? '<' '>' seed.toList = none := by
      refine Option.eq_none_iff_forall_ne_some.mpr fun inner found => bracketed (String.ofList inner) ?_
      refine String.toList_injective ?_
      rw [between?_eq_some_iff.mp found, Rdf.toList_iriText, String.toList_ofList]
    simp [decodeSeed, none]

theorem decodeSeed_eq_ok_iff :
    decodeSeed seed = .ok iri ↔ Names seed iri ∧ Rdf.isAbsoluteIri iri.toList = true := by
  obtain ⟨named, names, decoded⟩ := exists_names seed
  rw [decoded]
  constructor
  · intro succeeds
    split at succeeds
    · next absolute =>
      cases succeeds
      exact ⟨names, absolute⟩
    · cases succeeds
  · rintro ⟨also, absolute⟩
    cases names.unique also
    exact if_pos absolute

theorem settles_seed : Settles (Item.Fault prefixes) [.seed seed] (decodeSeed seed) := by
  obtain ⟨named, names, decoded⟩ := exists_names seed
  rw [decoded]
  split
  · next absolute =>
    refine .ok (List.forall_mem_singleton.mpr fun error fault => ?_)
    cases fault with
    | relative also relative =>
      cases names.unique also
      exact relative absolute
  · next relative => exact .error (.here (.relative names relative))

theorem Item.Fault.unique {item : Item} {error other : PlanError} (one : item.Fault prefixes error)
    (two : item.Fault prefixes other) : error = other := by
  cases one with
  | unread fails =>
    cases two with
    | unread also =>
      rw [fails] at also
      cases also
      rfl
    | misplaced read =>
      rw [fails] at read
      cases read
  | misplaced read misfit =>
    cases two with
    | unread fails =>
      rw [read] at fails
      cases fails
    | misplaced also =>
      rw [read] at also
      cases also
      rfl
  | relative => cases two; rfl

theorem settles_term {position : Position} {text : String} :
    Settles (Item.Fault prefixes) [.term position text]
      ((PatternTerm.ofTextAt prefixes position text).mapError .invalidTerm) := by
  unfold PatternTerm.ofTextAt
  cases read : PatternTerm.ofText prefixes position text with
  | error error => exact .error (.here (.unread read))
  | ok term =>
    change Settles _ _ ((if term.fits position = true then Except.ok term
      else .error (.unsupported position term.text)).mapError PlanError.invalidTerm)
    split
    · next fits =>
      refine .ok (List.forall_mem_singleton.mpr fun error fault => ?_)
      cases fault with
      | unread fails =>
        rw [read] at fails
        cases fails
      | misplaced also misfit =>
        rw [read] at also
        cases also
        exact misfit (Position.fits_iff.mp fits)
    · next misfit =>
      exact .error (.here (.misplaced read (mt Position.fits_iff.mpr misfit)))

theorem mapError_bind {ε η α β : Type} {change : ε → η} (result : Except ε α) (next : α → Except ε β) :
    (result >>= next).mapError change = result.mapError change >>= fun value => (next value).mapError change := by
  cases result <;> rfl

theorem ofTexts_eq (prefixes : Prefixes) (subject predicate object : String) :
    TriplePattern.ofTexts prefixes subject predicate object = (do
      let subject ← PatternTerm.ofTextAt prefixes .subject subject
      let predicate ← PatternTerm.ofTextAt prefixes .predicate predicate
      match predicate.iri? with
      | none => .error (.unsupported .predicate predicate.text)
      | some predicate =>
        let object ← PatternTerm.ofTextAt prefixes .object object
        .ok ⟨subject, .iri predicate, object⟩) := by
  have unfolded : PatternTerm.ofTextAt prefixes .predicate predicate =
      (PatternTerm.ofText prefixes .predicate predicate >>= fun term =>
        if term.fits .predicate then .ok term else .error (.unsupported .predicate term.text)) := rfl
  rw [unfolded, TriplePattern.ofTexts]
  congr 1
  funext subjectTerm
  cases PatternTerm.ofText prefixes .predicate predicate with
  | error error => rfl
  | ok term => rcases term with name | iri | label | literal <;> rfl

theorem settles_pattern {subject predicate object : String} : Settles (Item.Fault prefixes)
    [.term .subject subject, .term .predicate predicate, .term .object object]
    ((TriplePattern.ofTexts prefixes subject predicate object).mapError .invalidTerm) := by
  rw [ofTexts_eq, mapError_bind]
  refine settles_term.item_bind fun subject _ => ?_
  rw [mapError_bind]
  refine settles_term.item_bind fun term read => ?_
  obtain ⟨iri, rfl⟩ := Position.fits_iff.mp (PatternTerm.ofTextAt_eq_ok.mp (mapError_eq_ok.mp read)).2
  change Settles _ _ ((PatternTerm.ofTextAt prefixes .object object >>= fun object =>
    Except.ok (TriplePattern.mk subject (.iri iri) object)).mapError PlanError.invalidTerm)
  rw [mapError_bind]
  exact settles_term.item_bind fun object _ => .pure _

theorem settles_path (path : Path) : Settles (Item.Fault prefixes) path.items (path.decode prefixes) := by
  rw [← List.append_nil path.items, Path.items, List.map_eq_flatMap]
  exact (Settles.mapM fun _ _ => settles_seed).bind fun seeds _ => .pure _

theorem settles_entry (entry : Entry) :
    Settles (Item.Fault prefixes) entry.items (entry.decode prefixes) := by
  refine settles_pattern.bind fun pattern _ => ?_
  rw [← List.append_nil (entry.paths.flatMap Path.items)]
  exact (Settles.mapM fun path _ => settles_path path).bind fun paths _ => .pure _

theorem settles_decode (document : Document) :
    Settles (Item.Fault (.ofList document.prefixes)) document.items document.decode := by
  rw [← List.append_nil document.items]
  exact (Settles.mapM fun entry _ => settles_entry entry).bind fun entries _ => .pure _

/-- Decoding fails exactly with the first fault among the items of the document. -/
theorem decode_eq_error_iff {document : Document} {error : PlanError} : document.decode = .error error ↔
    FirstFault (Item.Fault (.ofList document.prefixes)) document.items error :=
  document.settles_decode.eq_error_iff fun _ _ _ one two => one.unique two

end
end Document
end PlanGraph
