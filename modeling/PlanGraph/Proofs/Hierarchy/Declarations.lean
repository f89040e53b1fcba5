import PlanGraph.Hierarchy.Vocabulary
import PlanGraph.Proofs.Hierarchy.Closure

/-! Hierarchies made of declarations. A declared step makes both of its ends known, so walks from known
types never leave them. -/

set_option autoImplicit false
namespace PlanGraph.Hierarchy

/-- Made by declaring types and subtypes in any order. -/
inductive Declared : Hierarchy → Prop
  | empty : Declared empty
  | addType {hierarchy : Hierarchy} (before : Declared hierarchy) (type : Iri) :
      Declared (hierarchy.addType type)
  | addSubtype {hierarchy : Hierarchy} (before : Declared hierarchy) (subtype supertype : Iri) :
      Declared (hierarchy.addSubtype subtype supertype)

def Closed (hierarchy : Hierarchy) : Prop :=
  ∀ edge ∈ hierarchy.edges, edge.source ∈ hierarchy.types ∧ edge.target ∈ hierarchy.types

/-- The two sides of a hierarchy agree: a subtype of a type has that type as a supertype. -/
def Mirrored (hierarchy : Hierarchy) : Prop :=
  ∀ type subtype,
    hierarchy.Leads TypeEntry.sub type subtype ↔ hierarchy.Leads TypeEntry.sup subtype type

variable {hierarchy : Hierarchy}

theorem not_leads_empty {side : TypeEntry → OrderedSet Iri} {first second : Iri} :
    ¬empty.Leads side first second :=
  OrderedSet.not_mem_none second

/-! What the declarations do to the known types and to either side. -/

theorem contains_eq_isSome {type : Iri} :
    hierarchy.contains type = (hierarchy.entries.find? type).isSome := rfl

theorem contains_addType {type other : Iri} :
    (hierarchy.addType type).contains other = true ↔ other = type ∨ hierarchy.contains other = true := by
  unfold addType
  split
  · next known =>
    refine (or_iff_right_of_imp ?_).symm
    rintro rfl
    exact known
  · rw [contains_eq_isSome, contains_eq_isSome, OrderedMap.find?_insert]
    by_cases same : other = type <;> simp [same]

theorem contains_changeEntry {type other : Iri} {change : TypeEntry → TypeEntry} :
    (hierarchy.changeEntry type change).contains other = true ↔
      other = type ∨ hierarchy.contains other = true := by
  rw [changeEntry, contains_eq_isSome, contains_eq_isSome, OrderedMap.find?_insert]
  by_cases same : other = type <;> simp [same]

theorem contains_addSubtype {subtype supertype other : Iri} :
    (hierarchy.addSubtype subtype supertype).contains other = true ↔
      other = subtype ∨ other = supertype ∨ hierarchy.contains other = true :=
  contains_changeEntry.trans (or_congr_right contains_changeEntry)

section
variable {side : TypeEntry → OrderedSet Iri} {type first second : Iri}

theorem leads_addType (isolated : side .isolated = ∅) :
    (hierarchy.addType type).Leads side first second ↔ hierarchy.Leads side first second := by
  unfold addType
  split
  · exact Iff.rfl
  · next unknown =>
    have missing : hierarchy.entries.find? type = none := by
      simpa [contains_eq_isSome] using unknown
    unfold Leads neighbours
    rw [OrderedMap.find?_insert]
    by_cases same : first = type <;> simp [same, missing, isolated]

theorem leads_changeEntry_of_same {change : TypeEntry → TypeEntry} (isolated : side .isolated = ∅)
    (same : ∀ entry, side (change entry) = side entry) :
    (hierarchy.changeEntry type change).Leads side first second ↔ hierarchy.Leads side first second := by
  unfold Leads neighbours changeEntry
  rw [OrderedMap.find?_insert]
  by_cases here : first = type
  · subst here
    cases hierarchy.entries.find? first <;> simp [same, isolated]
  · simp [here]

theorem leads_changeEntry_of_insert {change : TypeEntry → TypeEntry} {new : Iri}
    (isolated : side .isolated = ∅) (inserts : ∀ entry, side (change entry) = (side entry).insert new) :
    (hierarchy.changeEntry type change).Leads side first second ↔
      first = type ∧ second = new ∨ hierarchy.Leads side first second := by
  unfold Leads neighbours changeEntry
  rw [OrderedMap.find?_insert]
  by_cases here : first = type
  · subst here
    cases hierarchy.entries.find? first <;> simp [inserts, isolated]
  · simp [here]

theorem leads_sub_addSubtype {subtype supertype : Iri} :
    (hierarchy.addSubtype subtype supertype).Leads TypeEntry.sub first second ↔
      first = supertype ∧ second = subtype ∨ hierarchy.Leads TypeEntry.sub first second := by
  unfold addSubtype
  rw [leads_changeEntry_of_same rfl, leads_changeEntry_of_insert rfl]
  · exact fun entry => rfl
  · exact fun entry => rfl

theorem leads_sup_addSubtype {subtype supertype : Iri} :
    (hierarchy.addSubtype subtype supertype).Leads TypeEntry.sup first second ↔
      first = subtype ∧ second = supertype ∨ hierarchy.Leads TypeEntry.sup first second := by
  unfold addSubtype
  rw [leads_changeEntry_of_insert rfl, leads_changeEntry_of_same rfl]
  · exact fun entry => rfl
  · exact fun entry => rfl

end

/-! What holds of all hierarchies made that way. -/

theorem Declared.mirrored (declared : hierarchy.Declared) : hierarchy.Mirrored := by
  induction declared with
  | empty => exact fun type subtype => iff_of_false not_leads_empty not_leads_empty
  | addType _ type ih =>
    intro upper lower
    rw [leads_addType rfl, leads_addType rfl]
    exact ih upper lower
  | addSubtype _ subtype supertype ih =>
    intro upper lower
    rw [leads_sub_addSubtype, leads_sup_addSubtype, and_comm]
    exact or_congr_right (ih upper lower)

theorem contains_of_leads {side : TypeEntry → OrderedSet Iri} {type next : Iri}
    (leads : hierarchy.Leads side type next) : hierarchy.contains type = true := by
  obtain ⟨entry, found, _⟩ := mem_neighbours.mp leads
  exact OrderedMap.contains_iff.mpr ⟨entry, found⟩

theorem Mirrored.closed (mirrored : hierarchy.Mirrored) : hierarchy.Closed := by
  intro edge member
  have lower : hierarchy.Leads TypeEntry.sub edge.target edge.source := by
    rw [leads_sub]
    exact member
  have upper := (mirrored _ _).mp lower
  exact ⟨contains_iff.mp (contains_of_leads upper), contains_iff.mp (contains_of_leads lower)⟩

theorem Declared.closed (declared : hierarchy.Declared) : hierarchy.Closed :=
  declared.mirrored.closed

theorem Closed.contains_below (closed : hierarchy.Closed) {type lower : Iri}
    (known : hierarchy.contains type = true) (below : lower ∈ hierarchy.below type) :
    hierarchy.contains lower = true := by
  induction mem_below.mp below with
  | refl => exact known
  | tail _ declared => exact contains_iff.mpr (closed _ declared).1

/-! Vocabularies declare types and subtypes, too. -/

theorem Declared.addTriple (declared : hierarchy.Declared) (triple : Rdf.Triple) :
    (hierarchy.addTriple triple).Declared := by
  unfold Hierarchy.addTriple
  split
  · split
    · exact declared.addType _
    · split
      · exact declared.addSubtype _ _
      · exact declared
  · exact declared

theorem Declared.load (declared : hierarchy.Declared) (document : Turtle.Document) :
    (hierarchy.load document).Declared := by
  unfold Hierarchy.load
  generalize document.triples = triples
  induction triples generalizing hierarchy with
  | nil => exact declared
  | cons triple rest ih => exact ih (declared.addTriple triple)

theorem declared_of_glyphs {glyphs : List Text.Glyph} (read : ofGlyphs? glyphs = some hierarchy) :
    hierarchy.Declared := by
  unfold ofGlyphs? at read
  dsimp only at read
  split at read
  · cases read
    exact Declared.empty.load _
  · cases read

end PlanGraph.Hierarchy
