import PlanGraph.Proofs.Plan.TermText

/-! Terms that were read from a text, and the text that is written for them. Trimming leaves no white space
at the end of a variable, so all terms that are read are readable but the IRIs that start with an angle
bracket: within brackets they look like quoted triples. -/

set_option autoImplicit false
namespace PlanGraph
open Text

theorem Text.isBlank_of_mem_getLast?_trim (chars : List Char) :
    ∀ last ∈ (trim chars).getLast?, isBlank last = false := by
  intro last ends
  rw [trim, trimEnd, List.getLast?_reverse] at ends
  have first := List.head?_dropWhile_not isBlank (trimStart chars).reverse
  rwa [Option.mem_def.mp ends] at first

theorem variableName?_eq_some_iff {chars name : List Char} :
    variableName? chars = some name ↔ chars = '?' :: name ∨ chars = '$' :: name := by
  unfold variableName?
  split <;> simp_all

namespace PatternTerm
variable {prefixes : Prefixes} {position : Position} {raw : String} {term : PatternTerm}

def StartsBracket (term : PatternTerm) : Prop :=
  ∃ iri : Iri, term = .iri iri ∧ iri.toList.head? = some '<'

theorem isReadable_or_startsBracket_iri (iri : Iri) :
    (PatternTerm.iri iri).IsReadable ∨ (PatternTerm.iri iri).StartsBracket := by
  by_cases starts : iri.toList.head? = some '<'
  · exact Or.inr ⟨iri, rfl, starts⟩
  · exact Or.inl (.iri starts)

/-- Every form of a term that is accepted gives a readable term, or an IRI with a bracket. -/
theorem isReadable_or_startsBracket (read : ofText prefixes position raw = .ok term) :
    term.IsReadable ∨ term.StartsBracket := by
  unfold ofText at read
  dsimp only at read
  split at read
  · next name marked =>
    split at read
    · next valid =>
      cases read
      refine Or.inl (.named (by simpa using valid) fun last ends => ?_)
      -- The name is not empty, so its last character is the last one of the trimmed text.
      rw [String.toList_ofList] at ends
      have nonempty : name ≠ [] := fun empty => by simp [empty, isVariableName] at valid
      refine isBlank_of_mem_getLast?_trim raw.toList last ?_
      rcases variableName?_eq_some_iff.mp marked with whole | whole
      · rw [whole, List.getLast?_cons_of_ne_nil nonempty]
        exact ends
      · rw [whole, List.getLast?_cons_of_ne_nil nonempty]
        exact ends
    · cases read
  · split at read
    · cases read
      exact isReadable_or_startsBracket_iri _
    · split at read
      · split at read
        · next literal found =>
          cases read
          exact Or.inl (.literal found)
        · cases read
      · split at read
        · cases read
        · cases read
          exact isReadable_or_startsBracket_iri _

/-- Two brackets at the front are those of a quoted triple, which no pattern supports. -/
theorem ofText_of_startsBracket (bracket : term.StartsBracket) (prefixes : Prefixes) (position : Position) :
    ofText prefixes position term.text = .error (.unsupported position term.text) := by
  obtain ⟨iri, rfl, starts⟩ := bracket
  obtain ⟨rest, whole⟩ := List.head?_eq_some_iff.mp starts
  have trimmed : trim (Rdf.iriText iri).toList = (Rdf.iriText iri).toList :=
    trim_of_surrounds (Surrounds.refl _) (isTrimmed_iriText iri)
  have front : (Rdf.iriText iri).toList = '<' :: '<' :: (rest ++ ['>']) := by
    rw [Rdf.toList_iriText, whole]
    rfl
  change ofText prefixes position (Rdf.iriText iri) = .error (.unsupported position (Rdf.iriText iri))
  rw [ofText, trimmed, String.ofList_toList, front]
  simp [variableName?, startsLiteral, startsUnsupported, after?]

/-- The text of a term that was read reads as the term, whatever the prefixes and the position are then;
but an IRI whose text starts with an angle bracket is not supported anywhere. -/
theorem ofText_text (read : ofText prefixes position raw = .ok term) (others : Prefixes) (place : Position) :
    (¬term.StartsBracket → ofText others place term.text = .ok term) ∧
      (term.StartsBracket → ofText others place term.text = .error (.unsupported place term.text)) := by
  refine ⟨fun plain => ?_, fun bracket => ofText_of_startsBracket bracket others place⟩
  have readable := (isReadable_or_startsBracket read).resolve_right plain
  exact ofText_of_surrounds readable (Surrounds.refl _) others place

end PatternTerm

/-! A literal with an escape and a tag in capitals, a bare number, a compact name whose namespace holds
white space, and a name that keeps a bracket. -/

theorem ofText_text_forms :
    let prefixes : Prefixes := .ofList [("ex", " urn:")]
    let greeting : PatternTerm := .fixed (.literal (.tagged "é\"" "en-gb"))
    let number : PatternTerm := .fixed (.literal (.typed "-1.50" Rdf.Vocabulary.xsdDecimal))
    PatternTerm.ofText prefixes .object " \"\\u00E9\\\"\"@EN-gb" = .ok greeting ∧
      PatternTerm.ofText ∅ .subject greeting.text = .ok greeting ∧
      PatternTerm.ofText prefixes .object "-1.50\t" = .ok number ∧
      PatternTerm.ofText ∅ .predicate number.text = .ok number ∧
      PatternTerm.ofText prefixes .subject "ex:a:b " = .ok (.iri " urn:a:b") ∧
      PatternTerm.ofText ∅ .object "< urn:a:b>" = .ok (.iri " urn:a:b") ∧
      PatternTerm.ofText prefixes .subject "<x" = .ok (.iri "<x") ∧
      PatternTerm.ofText ∅ .object "<<x>" = .error (.unsupported .object "<<x>") := by
  intro prefixes greeting number
  have escaped : PatternTerm.ofText prefixes .object " \"\\u00E9\\\"\"@EN-gb" = .ok greeting := by
    decide +kernel
  have bare : PatternTerm.ofText prefixes .object "-1.50\t" = .ok number := by decide +kernel
  have compact : PatternTerm.ofText prefixes .subject "ex:a:b " = .ok (.iri " urn:a:b") := by
    decide +kernel
  have bracket : PatternTerm.ofText prefixes .subject "<x" = .ok (.iri "<x") := by decide +kernel
  refine ⟨escaped, (PatternTerm.ofText_text escaped ∅ .subject).1 ?_, bare,
    (PatternTerm.ofText_text bare ∅ .predicate).1 ?_, compact,
    (PatternTerm.ofText_text compact ∅ .object).1 ?_, bracket,
    (PatternTerm.ofText_text bracket ∅ .object).2 ⟨"<x", rfl, by decide⟩⟩
  · rintro ⟨iri, same, _⟩
    simp [greeting, PatternTerm.iri] at same
  · rintro ⟨iri, same, _⟩
    simp [number, PatternTerm.iri] at same
  · rintro ⟨iri, same, starts⟩
    cases same
    exact absurd starts (by decide)

end PlanGraph
