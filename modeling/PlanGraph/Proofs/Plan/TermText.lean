import PlanGraph.Plan.Decoding
import PlanGraph.Proofs.Rdf.LiteralText

/-! The text of a pattern term reads as the term, whatever the prefixes are and whatever white space
surrounds it. The marks at the front of the text lead back to the kind of the term; angle brackets
keep an IRI from being taken for a compact name. -/

set_option autoImplicit false
namespace PlanGraph
open Text

/-- The terms whose text reads as the term. A name that ends in white space would lose it to trimming,
two angle brackets would start a quoted triple, and literals are those that some text reads as. -/
inductive PatternTerm.IsReadable : PatternTerm → Prop
  | named {name : String} (valid : isVariableName name.toList = true)
      (ends : ∀ last ∈ name.toList.getLast?, isBlank last = false) : IsReadable (.variable name)
  | iri {name : Iri} (starts : name.toList.head? ≠ some '<') : IsReadable (.iri name)
  | literal {value : Rdf.Literal} {chars : List Char} (read : Rdf.Literal.ofChars? chars = some value) :
      IsReadable (.fixed (.literal value))

/-! ## The ends of the text -/

theorem isTrimmed_append {before chars : List Char} (nonempty : chars ≠ [])
    (starts : ∀ first ∈ (before ++ chars).head?, isBlank first = false)
    (ends : ∀ last ∈ chars.getLast?, isBlank last = false) : IsTrimmed (before ++ chars) where
  nonempty := by simp [nonempty]
  starts := starts
  ends := by rwa [List.getLast?_append_of_ne_nil before nonempty]

theorem isTrimmed_iriText (iri : Iri) : IsTrimmed (Rdf.iriText iri).toList := by
  rw [Rdf.toList_iriText, ← List.cons_append]
  apply isTrimmed_append (by simp)
  · intro first leads
    cases leads
    decide
  · intro last ends
    cases ends
    decide

theorem isTrimmed_literalText {literal : Rdf.Literal} (readable : literal.IsReadable) :
    IsTrimmed literal.text.toList := by
  rw [Rdf.Literal.toList_text, ← List.cons_append]
  apply isTrimmed_append (by simp)
  · intro first leads
    cases leads
    decide
  · intro last ends
    cases readable with
    | simple value =>
      rw [Rdf.Literal.suffix, List.getLast?_singleton] at ends
      cases ends
      decide
    | tagged letters _ _ =>
      have inside := List.mem_of_getLast? ends
      simp only [Rdf.Literal.suffix, List.mem_cons] at inside
      rcases inside with rfl | rfl | letter
      · decide
      · decide
      · exact Rdf.isBlank_of_isTagChar (letters last letter)
    | @typed value datatype _ _ =>
      have closing : (Rdf.Literal.typed value datatype).suffix =
          ('^' :: '^' :: '<' :: datatype.toList) ++ ['>'] := by
        simp [Rdf.Literal.suffix, Rdf.toList_iriText]
      rw [closing, ← List.cons_append, List.getLast?_concat] at ends
      cases ends
      decide

theorem PatternTerm.IsReadable.isTrimmed {term : PatternTerm} (readable : term.IsReadable) :
    IsTrimmed term.text.toList := by
  cases readable with
  | @named name valid ends =>
    have marked : (variableText name).toList = ['?'] ++ name.toList := by simp [variableText]
    rw [PatternTerm.text, marked]
    apply isTrimmed_append
    · intro empty
      rw [empty] at valid
      cases valid
    · intro first leads
      cases leads
      decide
    · exact ends
  | @iri name _ => exact isTrimmed_iriText name
  | literal read => exact isTrimmed_literalText (Rdf.isReadable_of_ofChars? read)

/-! ## Reading terms -/

theorem Prefixes.expand_iriText (prefixes : Prefixes) (iri : Iri) :
    prefixes.expand (Rdf.iriText iri) = iri := by
  rw [Prefixes.expand, Rdf.toList_iriText, between?_enclosed]
  exact String.ofList_toList

theorem PatternTerm.ofText_of_surrounds {term : PatternTerm} {raw : String}
    (readable : term.IsReadable) (surrounded : Surrounds raw.toList term.text.toList)
    (prefixes : Prefixes) (position : Position) :
    PatternTerm.ofText prefixes position raw = .ok term := by
  rw [PatternTerm.ofText, trim_of_surrounds surrounded readable.isTrimmed]
  cases readable with
  | @named name valid ends =>
    have marked : (variableText name).toList = '?' :: name.toList := by simp [variableText]
    simp [PatternTerm.text, marked, variableName?, valid]
  | @iri name starts =>
    have expanded := prefixes.expand_iriText name
    have supported : startsUnsupported ('<' :: (name.toList ++ ['>'])) = false := by
      cases whole : name.toList with
      | nil => decide
      | cons first rest =>
        have single : '<' ≠ first := fun same => starts (by rw [whole, same]; rfl)
        simp [startsUnsupported, after?, single]
    simp only [PatternTerm.text, PatternTerm.iri, Rdf.Term.text, String.ofList_toList, expanded]
    simp [Rdf.toList_iriText, variableName?, startsLiteral, supported]
  | @literal value chars read =>
    have read := Rdf.Literal.ofChars?_text (Rdf.isReadable_of_ofChars? read)
    rw [Rdf.Literal.toList_text] at read
    simp [PatternTerm.text, Rdf.Term.text, Rdf.Literal.toList_text, variableName?, startsLiteral, read]

theorem PatternTerm.ofTextAt_of_surrounds {term : PatternTerm} {raw : String} {position : Position}
    (readable : term.IsReadable) (fits : term.fits position = true)
    (surrounded : Surrounds raw.toList term.text.toList) (prefixes : Prefixes) :
    PatternTerm.ofTextAt prefixes position raw = .ok term := by
  rw [PatternTerm.ofTextAt, ofText_of_surrounds readable surrounded]
  exact if_pos fits

theorem PatternTerm.IsReadable.fits_object {term : PatternTerm} (readable : term.IsReadable) :
    term.fits .object = true := by
  cases readable <;> rfl

/-! ## Patterns and seeds -/

structure TriplePattern.IsReadable (pattern : TriplePattern) : Prop where
  subject : pattern.subject.IsReadable
  subject_fits : pattern.subject.fits .subject = true
  predicate : ∃ name : Iri, pattern.predicate = .iri name ∧ name.toList.head? ≠ some '<'
  object : pattern.object.IsReadable

def Predicate.text : Predicate → String
  | .iri name => Rdf.iriText name
  | .variable name => variableText name

theorem TriplePattern.ofTexts_of_surrounds {pattern : TriplePattern}
    {subjectText predicateText objectText : String} (readable : pattern.IsReadable)
    (subject : Surrounds subjectText.toList pattern.subject.text.toList)
    (predicate : Surrounds predicateText.toList pattern.predicate.text.toList)
    (object : Surrounds objectText.toList pattern.object.text.toList) (prefixes : Prefixes) :
    TriplePattern.ofTexts prefixes subjectText predicateText objectText = .ok pattern := by
  obtain ⟨subjectTerm, predicateTerm, objectTerm⟩ := pattern
  obtain ⟨name, rfl, starts⟩ := readable.predicate
  have predicateReadable : (PatternTerm.iri name).IsReadable := .iri starts
  rw [ofTexts, PatternTerm.ofTextAt_of_surrounds readable.subject readable.subject_fits subject,
    PatternTerm.ofText_of_surrounds predicateReadable predicate,
    PatternTerm.ofTextAt_of_surrounds readable.object readable.object.fits_object object]
  rfl

theorem Document.decodeSeed_iriText {iri : Iri} (absolute : Rdf.isAbsoluteIri iri.toList = true) :
    Document.decodeSeed (Rdf.iriText iri) = .ok iri := by
  rw [decodeSeed, Rdf.toList_iriText, between?_enclosed]
  simp [absolute]

theorem Document.decodeSeed_iri {iri : Iri} (absolute : Rdf.isAbsoluteIri iri.toList = true) :
    Document.decodeSeed iri = .ok iri := by
  obtain ⟨first, rest, whole, letter⟩ := Rdf.isAlpha_of_isAbsoluteIri absolute
  have bare : between? '<' '>' iri.toList = none := by
    apply between?_eq_none
    rw [whole]
    rintro same
    cases same
    cases letter
  simp [decodeSeed, bare, absolute]

end PlanGraph
