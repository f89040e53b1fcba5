import PlanGraph.Proofs.Text.ReadBack
import PlanGraph.Rdf.Format

/-! The names of the text formats, as tables and as the form that a media type has around them. -/

set_option autoImplicit false
namespace PlanGraph.Rdf.Format
open Text

def extensions : Format → List String
  | .jsonLd => ["json", "jsonld"]
  | .n3 => ["n3"]
  | .nQuads => ["nq"]
  | .nTriples => ["nt", "txt"]
  | .rdfXml => ["rdf", "xml"]
  | .triG => ["trig"]
  | .turtle => ["ttl"]

def subtypes : Format → List String
  | .jsonLd => ["json", "ld+json", "jsonld", "activity+json"]
  | .n3 => ["n3"]
  | .nQuads => ["n-quads", "nquads"]
  | .nTriples => ["n-triples", "ntriples", "plain"]
  | .rdfXml => ["rdf+xml", "xml"]
  | .triG => ["trig"]
  | .turtle => ["turtle"]

variable {format other : Format} {chars : List Char}

def HasExtension (format : Format) (extension : List Char) : Prop :=
  lowerText extension ∈ format.extensions

/-- A key and a value. The texts of all formats are in UTF-8, so no other encoding may be asked for. -/
inductive IsParameter : List Char → Prop
  | mk {key value : List Char} (clear : '=' ∉ key)
      (encoding : trim key = "charset".toList → lowerText (trim value) ∈ ["ascii", "utf8", "utf-8"]) :
      IsParameter (key ++ '=' :: value)

def AreParameters (parameters : List Char) : Prop :=
  trim parameters = [] ∨ ∀ parameter ∈ splitOn ';' (trim parameters), IsParameter parameter

/-- A type and a subtype of the format, with or without the mark of experimental subtypes. -/
inductive HasType (format : Format) : List Char → Prop
  | mk {main subtype name : List Char} (clear : '/' ∉ main)
      (kind : lowerText (trim main) ∈ ["application", "text"])
      (marked : trim subtype = name ∨ trim subtype = 'x' :: '-' :: name)
      (listed : lowerText name ∈ format.subtypes) : HasType format (main ++ '/' :: subtype)

inductive HasMediaType (format : Format) : List Char → Prop
  | bare {type : List Char} (clear : ';' ∉ type) (names : format.HasType type) : HasMediaType format type
  | parameters {type parameters : List Char} (clear : ';' ∉ type) (names : format.HasType type)
      (accepted : AreParameters parameters) : HasMediaType format (type ++ ';' :: parameters)

/-! ## Extensions -/

theorem ofExtension?_eq_some_iff : ofExtension? chars = some format ↔ format.HasExtension chars := by
  unfold ofExtension? HasExtension
  generalize lowerText chars = name
  constructor
  · intro read
    split at read <;> cases read <;> decide
  · intro listed
    cases format <;> simp only [extensions, List.mem_cons, List.not_mem_nil, or_false] at listed <;> grind

theorem ofSubtype?_eq_some_iff : ofSubtype? chars = some format ↔ lowerText chars ∈ format.subtypes := by
  unfold ofSubtype?
  generalize lowerText chars = name
  constructor
  · intro read
    split at read <;> cases read <;> decide
  · intro listed
    cases format <;> simp only [subtypes, List.mem_cons, List.not_mem_nil, or_false] at listed <;> grind

/-! ## Media types -/

theorem acceptsParameter_iff : acceptsParameter chars = true ↔ IsParameter chars := by
  unfold acceptsParameter
  constructor
  · intro accepted
    split at accepted
    · cases accepted
    · next key value cut =>
      obtain ⟨rfl, clear⟩ := cutAt?_eq_some_iff.mp cut
      refine .mk clear fun charset => ?_
      simpa [charset] using accepted
  · rintro ⟨clear, encoding⟩
    rw [cutAt?_append clear]
    simpa [Classical.or_iff_not_imp_left] using encoding

theorem acceptsParameters_iff : acceptsParameters chars = true ↔ AreParameters chars := by
  simp only [acceptsParameters, AreParameters, Bool.or_eq_true, List.isEmpty_iff, List.all_eq_true,
    acceptsParameter_iff]

/-- No subtype looks like an experimental one, so the mark can be told from the name. -/
theorem take_two_of_subtype {name : String} (listed : name ∈ format.subtypes) :
    name.toList.take 2 ≠ ['x', '-'] := by
  have all : ∀ name ∈ format.subtypes, name.toList.take 2 ≠ ['x', '-'] := by
    cases format <;> decide
  exact all name listed

theorem ofSubtype?_unmarked_iff : ofSubtype? ((after? ['x', '-'] chars).getD chars) = some format ↔
    ∃ name, (chars = name ∨ chars = 'x' :: '-' :: name) ∧ lowerText name ∈ format.subtypes := by
  cases marked : after? ['x', '-'] chars with
  | none =>
    have unmarked (name : List Char) : chars ≠ 'x' :: '-' :: name := fun same => by
      rw [after?_eq_some_iff.mpr same] at marked
      cases marked
    rw [Option.getD_none, ofSubtype?_eq_some_iff]
    simp [unmarked]
  | some rest =>
    have whole := after?_eq_some_iff.mp marked
    have plain : lowerText chars ∉ format.subtypes := fun listed =>
      take_two_of_subtype listed (by rw [whole, lowerText, String.toList_ofList]; rfl)
    rw [Option.getD_some, ofSubtype?_eq_some_iff]
    constructor
    · exact fun listed => ⟨rest, Or.inr whole, listed⟩
    · rintro ⟨name, rfl | same, listed⟩
      · exact absurd listed plain
      · cases whole.symm.trans same
        exact listed

theorem hasType_iff {type : List Char} : format.HasType type ↔
    ∃ main subtype, cutAt? '/' type = some (main, subtype) ∧
      lowerText (trim main) ∈ ["application", "text"] ∧
      ofSubtype? ((after? ['x', '-'] (trim subtype)).getD (trim subtype)) = some format := by
  constructor
  · rintro ⟨clear, kind, marked, listed⟩
    exact ⟨_, _, cutAt?_append clear, kind, ofSubtype?_unmarked_iff.mpr ⟨_, marked, listed⟩⟩
  · rintro ⟨main, subtype, cut, kind, named⟩
    obtain ⟨rfl, clear⟩ := cutAt?_eq_some_iff.mp cut
    obtain ⟨name, marked, listed⟩ := ofSubtype?_unmarked_iff.mp named
    exact .mk clear kind marked listed

theorem hasMediaType_iff {type parameters : List Char}
    (split : (cutAt? ';' chars).getD (chars, []) = (type, parameters)) :
    format.HasMediaType chars ↔ format.HasType type ∧ AreParameters parameters := by
  cases cut : cutAt? ';' chars with
  | none =>
    have clear := cutAt?_eq_none_iff.mp cut
    rw [cut] at split
    cases split
    constructor
    · intro names
      cases names with
      | bare _ names => exact ⟨names, Or.inl rfl⟩
      | parameters => simp at clear
    · exact fun ⟨names, _⟩ => .bare clear names
  | some halves =>
    rw [cut] at split
    cases split
    -- The type ends at the first semicolon, so it has none itself.
    obtain ⟨whole, clear⟩ := cutAt?_eq_some_iff.mp cut
    constructor
    · intro names
      cases names with
      | bare unmarked => simp [whole] at unmarked
      | parameters also names accepted =>
        rw [cutAt?_append also] at cut
        cases cut
        exact ⟨names, accepted⟩
    · rintro ⟨names, accepted⟩
      rw [whole]
      exact .parameters clear names accepted

theorem ofMediaType?_eq_some_iff : ofMediaType? chars = some format ↔ format.HasMediaType chars := by
  unfold ofMediaType?
  cases split : (cutAt? ';' chars).getD (chars, []) with
  | mk type parameters =>
    rw [hasMediaType_iff split, hasType_iff, ← acceptsParameters_iff]
    dsimp only
    cases cutAt? '/' type with
    | none => simp
    | some halves =>
      obtain ⟨main, subtype⟩ := halves
      simp [and_assoc, and_comm]

theorem HasMediaType.slash_mem (names : format.HasMediaType chars) : '/' ∈ chars := by
  cases names with
  | bare _ names =>
    cases names
    simp
  | parameters _ names _ =>
    cases names
    simp

theorem HasExtension.slash_not_mem (names : format.HasExtension chars) : '/' ∉ chars := by
  intro inside
  have lowered : '/' ∈ (lowerText chars).toList := by
    rw [lowerText, String.toList_ofList]
    exact List.mem_map.mpr ⟨'/', inside, by decide⟩
  have clear : ∀ name ∈ format.extensions, '/' ∉ name.toList := by
    cases format <;> decide
  exact clear _ names lowered

/-- A name is an extension or a media type, and it is never both. -/
def IsNamed (format : Format) (chars : List Char) : Prop :=
  format.HasExtension chars ∨ format.HasMediaType chars

theorem isNamed_iff :
    format.IsNamed chars ↔ (ofExtension? chars).or (ofMediaType? chars) = some format := by
  unfold IsNamed
  rw [← ofExtension?_eq_some_iff, ← ofMediaType?_eq_some_iff]
  cases extended : ofExtension? chars with
  | none => simp
  | some other =>
    have clear := (ofExtension?_eq_some_iff.mp extended).slash_not_mem
    have untyped : ofMediaType? chars ≠ some format := fun typed =>
      clear (ofMediaType?_eq_some_iff.mp typed).slash_mem
    simp [untyped]

end PlanGraph.Rdf.Format
