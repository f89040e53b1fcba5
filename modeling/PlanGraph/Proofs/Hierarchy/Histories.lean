import PlanGraph.Proofs.Hierarchy.Declarations
import PlanGraph.Proofs.Turtle.Reading

/-! Hierarchies and the declarations they were made by. A declaration makes some types known and links
some of them, and nothing else, so a hierarchy knows exactly what its declarations say, and its closures
are the chains of declared steps. -/

set_option autoImplicit false
namespace PlanGraph
open Rdf Rdf.Vocabulary

/-- One declaration of types. A vocabulary declares what its triples say. -/
inductive Declaration
  | type (name : Iri)
  | subtype (lower upper : Iri)
  | vocabulary (document : Turtle.Document)

def Rdf.Triple.Names (triple : Triple) (type : Iri) : Prop :=
  triple.subject = .iri type ∧ triple.predicate = rdfType ∧
    (triple.object = .iri owlClass ∨ triple.object = .iri rdfsClass)

def Rdf.Triple.Links (triple : Triple) (lower upper : Iri) : Prop :=
  triple.subject = .iri lower ∧ triple.predicate = rdfsSubClassOf ∧ triple.object = .iri upper

namespace Declaration

def Names (declaration : Declaration) (type : Iri) : Prop :=
  match declaration with
  | .type name => type = name
  | .subtype _ _ => False
  | .vocabulary document => ∃ triple ∈ document.triples, triple.Names type

def Links (declaration : Declaration) (lower upper : Iri) : Prop :=
  match declaration with
  | .type _ => False
  | .subtype sub sup => lower = sub ∧ upper = sup
  | .vocabulary document => ∃ triple ∈ document.triples, triple.Links lower upper

end Declaration

def DeclaredStep (declarations : List Declaration) (lower upper : Iri) : Prop :=
  ∃ declaration ∈ declarations, declaration.Links lower upper

/-- A type is declared on its own or as an end of a step. -/
def DeclaredType (declarations : List Declaration) (type : Iri) : Prop :=
  (∃ declaration ∈ declarations, declaration.Names type) ∨
    ∃ other, DeclaredStep declarations type other ∨ DeclaredStep declarations other type

namespace Hierarchy

def declare (hierarchy : Hierarchy) : Declaration → Hierarchy
  | .type name => hierarchy.addType name
  | .subtype lower upper => hierarchy.addSubtype lower upper
  | .vocabulary document => hierarchy.load document

def declareAll (hierarchy : Hierarchy) (declarations : List Declaration) : Hierarchy :=
  declarations.foldl declare hierarchy

/-- What the second hierarchy has more than the first: named types, and steps together with their
ends. -/
structure Gains (before after : Hierarchy) (named : Iri → Prop) (linked : Iri → Iri → Prop) : Prop where
  known : ∀ type, after.contains type = true ↔
    (named type ∨ ∃ other, linked type other ∨ linked other type) ∨ before.contains type = true
  lower : ∀ upper lower, after.Leads TypeEntry.sub upper lower ↔
    linked lower upper ∨ before.Leads TypeEntry.sub upper lower
  upper : ∀ lower upper, after.Leads TypeEntry.sup lower upper ↔
    linked lower upper ∨ before.Leads TypeEntry.sup lower upper

section
variable {before middle after hierarchy : Hierarchy}

theorem Gains.congr {named otherNamed : Iri → Prop} {linked otherLinked : Iri → Iri → Prop}
    (gains : before.Gains after named linked) (names : ∀ type, named type ↔ otherNamed type)
    (links : ∀ lower upper, linked lower upper ↔ otherLinked lower upper) :
    before.Gains after otherNamed otherLinked := by
  have sameNames : named = otherNamed := funext fun type => propext (names type)
  have sameLinks : linked = otherLinked :=
    funext fun lower => funext fun upper => propext (links lower upper)
  exact sameNames ▸ sameLinks ▸ gains

theorem gains_nothing : hierarchy.Gains hierarchy (fun _ => False) fun _ _ => False where
  known := by simp
  lower := by simp
  upper := by simp

theorem Gains.trans {named laterNamed : Iri → Prop} {linked laterLinked : Iri → Iri → Prop}
    (first : before.Gains middle named linked) (second : middle.Gains after laterNamed laterLinked) :
    before.Gains after (fun type => named type ∨ laterNamed type)
      fun lower upper => linked lower upper ∨ laterLinked lower upper where
  known := fun type => by
    rw [second.known, first.known]
    simp only [exists_or]
    grind
  lower := fun upper lower => by
    rw [second.lower, first.lower, or_left_comm, or_assoc]
  upper := fun lower upper => by
    rw [second.upper, first.upper, or_left_comm, or_assoc]

theorem gains_foldl {α : Type} {add : Hierarchy → α → Hierarchy} {names : α → Iri → Prop}
    {links : α → Iri → Iri → Prop}
    (step : ∀ hierarchy value, Gains hierarchy (add hierarchy value) (names value) (links value))
    (list : List α) : hierarchy.Gains (list.foldl add hierarchy)
      (fun type => ∃ value ∈ list, names value type)
      fun lower upper => ∃ value ∈ list, links value lower upper := by
  induction list generalizing hierarchy with
  | nil => exact gains_nothing.congr (by simp) (by simp)
  | cons first rest ih => exact ((step hierarchy first).trans ih).congr (by simp) (by simp)

/-! One declaration. -/

theorem gains_addType (type : Iri) :
    hierarchy.Gains (hierarchy.addType type) (· = type) fun _ _ => False where
  known := fun other => by simp [contains_addType]
  lower := fun upper lower => by simpa using leads_addType rfl
  upper := fun lower upper => by simpa using leads_addType rfl

theorem gains_addSubtype (subtype supertype : Iri) :
    hierarchy.Gains (hierarchy.addSubtype subtype supertype) (fun _ => False)
      fun lower upper => lower = subtype ∧ upper = supertype where
  known := fun type => by
    rw [contains_addSubtype, ← or_assoc]
    simp [exists_or]
  lower := fun upper lower => by rw [leads_sub_addSubtype, and_comm]
  upper := fun lower upper => leads_sup_addSubtype

theorem gains_addTriple (triple : Triple) :
    hierarchy.Gains (hierarchy.addTriple triple) triple.Names triple.Links := by
  obtain ⟨subject, predicate, object⟩ := triple
  have differ : rdfsSubClassOf ≠ rdfType := by decide
  unfold addTriple
  dsimp only
  split
  · next lower upper =>
    split
    · next classes =>
      refine (gains_addType lower).congr (fun type => ?_) fun _ _ => ?_
      · simp [Rdf.Triple.Names, classes, eq_comm]
      · simp [Rdf.Triple.Links, classes, differ.symm]
    · next other =>
      split
      · next subclass =>
        refine (gains_addSubtype lower upper).congr (fun type => ?_) fun _ _ => ?_
        · simp [Rdf.Triple.Names, subclass, differ]
        · simp [Rdf.Triple.Links, subclass, eq_comm]
      · next different =>
        refine gains_nothing.congr (fun type => ?_) fun _ _ => ?_
        · simpa [Rdf.Triple.Names] using fun _ => other
        · simp [Rdf.Triple.Links, different]
  -- An end that is no IRI is no type.
  · next ends =>
    refine gains_nothing.congr (fun type => ?_) fun lower upper => ?_
    · refine (iff_of_false id ?_)
      rintro ⟨subject, _, object | object⟩
      · exact ends type owlClass subject object
      · exact ends type rdfsClass subject object
    · refine (iff_of_false id ?_)
      rintro ⟨subject, _, object⟩
      exact ends lower upper subject object

theorem gains_load (document : Turtle.Document) :
    hierarchy.Gains (hierarchy.load document) (Declaration.vocabulary document).Names
      (Declaration.vocabulary document).Links :=
  gains_foldl (fun _ => gains_addTriple) document.triples

theorem gains_declare (hierarchy : Hierarchy) (declaration : Declaration) :
    hierarchy.Gains (hierarchy.declare declaration) declaration.Names declaration.Links := by
  cases declaration with
  | type name => exact gains_addType name
  | subtype lower upper => exact gains_addSubtype lower upper
  | vocabulary document => exact gains_load document

/-! Many declarations, from the empty hierarchy on. -/

variable {declarations : List Declaration} {type lower upper : Iri}

theorem gains_declareAll (declarations : List Declaration) :
    hierarchy.Gains (hierarchy.declareAll declarations)
      (fun type => ∃ declaration ∈ declarations, declaration.Names type) (DeclaredStep declarations) :=
  gains_foldl gains_declare declarations

/-- The hierarchies made by declarations are those that grow by one type or one step at a time. -/
theorem declared_iff : hierarchy.Declared ↔ ∃ declarations, empty.declareAll declarations = hierarchy := by
  constructor
  · intro declared
    induction declared with
    | empty => exact ⟨[], rfl⟩
    | addType _ name ih =>
      obtain ⟨declarations, rfl⟩ := ih
      exact ⟨declarations ++ [.type name], by simp [declareAll, declare]⟩
    | addSubtype _ lower upper ih =>
      obtain ⟨declarations, rfl⟩ := ih
      exact ⟨declarations ++ [.subtype lower upper], by simp [declareAll, declare]⟩
  · rintro ⟨declarations, rfl⟩
    refine List.foldlRecOn declarations declare .empty fun before made declaration _ => ?_
    cases declaration with
    | type name => exact made.addType name
    | subtype lower upper => exact made.addSubtype lower upper
    | vocabulary document => exact made.load document

theorem contains_declareAll :
    (empty.declareAll declarations).contains type = true ↔ DeclaredType declarations type := by
  have nothing : empty.contains type = false := rfl
  simp [(gains_declareAll declarations).known, nothing, DeclaredType]

theorem leads_sub_declareAll : (empty.declareAll declarations).Leads TypeEntry.sub upper lower ↔
    DeclaredStep declarations lower upper := by
  simp [(gains_declareAll declarations).lower, not_leads_empty]

theorem leads_sup_declareAll : (empty.declareAll declarations).Leads TypeEntry.sup lower upper ↔
    DeclaredStep declarations lower upper := by
  simp [(gains_declareAll declarations).upper, not_leads_empty]

/-! Closures. -/

theorem declaredType_iff_of_chain
    (chain : Relation.ReflTransGen (DeclaredStep declarations) lower upper) :
    DeclaredType declarations lower ↔ DeclaredType declarations upper := by
  induction chain with
  | refl => exact Iff.rfl
  | @tail middle last _ step ih =>
    have source : DeclaredType declarations middle := Or.inr ⟨last, Or.inl step⟩
    have target : DeclaredType declarations last := Or.inr ⟨middle, Or.inr step⟩
    exact ih.trans (iff_of_true source target)

theorem closure_declareAll {side : TypeEntry → OrderedSet Iri} {step : Iri → Iri → Prop}
    {found : OrderedSet Iri} (leads : (empty.declareAll declarations).Leads side = step) :
    (empty.declareAll declarations).closure side type = .ok found ↔ DeclaredType declarations type ∧
      ∀ other, other ∈ found ↔ Relation.ReflTransGen step type other := by
  rw [closure_eq_ok_iff, contains_declareAll]
  have members {other : Iri} : other ∈ (empty.declareAll declarations).reachable side (.start type) ↔
      Relation.ReflTransGen step type other := leads ▸ mem_reachable_start
  refine and_congr_right fun _ => ⟨?_, fun chains => ?_⟩
  · rintro rfl other
    exact members
  · exact OrderedSet.ext fun other => members.trans (chains other).symm

theorem subtypes_declareAll {found : OrderedSet Iri} :
    (empty.declareAll declarations).subtypes type = .ok found ↔ DeclaredType declarations type ∧
      ∀ other, other ∈ found ↔ Relation.ReflTransGen (DeclaredStep declarations) other type := by
  have leads : (empty.declareAll declarations).Leads TypeEntry.sub =
      Function.swap (DeclaredStep declarations) :=
    funext fun _ => funext fun _ => propext leads_sub_declareAll
  rw [subtypes, closure_declareAll leads]
  simp only [Relation.reflTransGen_swap]

theorem supertypes_declareAll {found : OrderedSet Iri} :
    (empty.declareAll declarations).supertypes type = .ok found ↔ DeclaredType declarations type ∧
      ∀ other, other ∈ found ↔ Relation.ReflTransGen (DeclaredStep declarations) type other :=
  closure_declareAll (funext fun _ => funext fun _ => propext leads_sup_declareAll)

theorem exists_subtypes (declared : DeclaredType declarations type) :
    ∃ found, (empty.declareAll declarations).subtypes type = .ok found ∧
      ∀ other, other ∈ found ↔ Relation.ReflTransGen (DeclaredStep declarations) other type := by
  have answer := subtypes_of_known (contains_declareAll.mpr declared)
  exact ⟨_, answer, (subtypes_declareAll.mp answer).2⟩

theorem exists_supertypes (declared : DeclaredType declarations type) :
    ∃ found, (empty.declareAll declarations).supertypes type = .ok found ∧
      ∀ other, other ∈ found ↔ Relation.ReflTransGen (DeclaredStep declarations) type other := by
  have answer : (empty.declareAll declarations).supertypes type = .ok _ :=
    closure_eq_ok_iff.mpr ⟨contains_declareAll.mpr declared, rfl⟩
  exact ⟨_, answer, (supertypes_declareAll.mp answer).2⟩

/-- The answers of a hierarchy about a type, told from the declarations it was made by. -/
structure ExactClosures (declarations : List Declaration) (hierarchy : Hierarchy) (type : Iri) :
    Prop where
  noSubtypes : hierarchy.subtypes type = .error ⟨type⟩ ↔ ¬DeclaredType declarations type
  noSupertypes : hierarchy.supertypes type = .error ⟨type⟩ ↔ ¬DeclaredType declarations type
  subtypes : DeclaredType declarations type → ∃ found, hierarchy.subtypes type = .ok found ∧
    ∀ other, other ∈ found ↔ Relation.ReflTransGen (DeclaredStep declarations) other type
  supertypes : DeclaredType declarations type → ∃ found, hierarchy.supertypes type = .ok found ∧
    ∀ other, other ∈ found ↔ Relation.ReflTransGen (DeclaredStep declarations) type other
  dual : ∀ other, (∃ found, hierarchy.subtypes type = .ok found ∧ other ∈ found) ↔
    ∃ found, hierarchy.supertypes other = .ok found ∧ type ∈ found
  known : ∀ found, hierarchy.subtypes type = .ok found ∨ hierarchy.supertypes type = .ok found →
    ∀ other, other ∈ found → hierarchy.contains other = true
  nested : ∀ found, hierarchy.subtypes type = .ok found → ∀ other, other ∈ found →
    ∃ inner, hierarchy.subtypes other = .ok inner ∧ ∀ lowest, lowest ∈ inner → lowest ∈ found

/-- After any declarations, closures are exactly the chains of declared steps, in both directions. -/
theorem closures_exact (declarations : List Declaration) (type : Iri) :
    ExactClosures declarations (empty.declareAll declarations) type where
  noSubtypes := closure_eq_error_iff.trans (not_congr contains_declareAll)
  noSupertypes := closure_eq_error_iff.trans (not_congr contains_declareAll)
  subtypes := exists_subtypes
  supertypes := exists_supertypes
  dual := fun other => by
    constructor
    · rintro ⟨found, lower, member⟩
      obtain ⟨declared, chains⟩ := subtypes_declareAll.mp lower
      have chain := (chains other).mp member
      obtain ⟨above, upper, uppers⟩ := exists_supertypes ((declaredType_iff_of_chain chain).mpr declared)
      exact ⟨above, upper, (uppers type).mpr chain⟩
    · rintro ⟨found, upper, member⟩
      obtain ⟨declared, chains⟩ := supertypes_declareAll.mp upper
      have chain := (chains type).mp member
      obtain ⟨below, lower, lowers⟩ := exists_subtypes ((declaredType_iff_of_chain chain).mp declared)
      exact ⟨below, lower, (lowers other).mpr chain⟩
  known := by
    rintro found (lower | upper) other member
    · obtain ⟨declared, chains⟩ := subtypes_declareAll.mp lower
      exact contains_declareAll.mpr ((declaredType_iff_of_chain ((chains other).mp member)).mpr declared)
    · obtain ⟨declared, chains⟩ := supertypes_declareAll.mp upper
      exact contains_declareAll.mpr ((declaredType_iff_of_chain ((chains other).mp member)).mp declared)
  -- A chain down from a subtype goes on the chain to that subtype.
  nested := by
    intro found lower other member
    obtain ⟨declared, chains⟩ := subtypes_declareAll.mp lower
    have chain := (chains other).mp member
    obtain ⟨inner, answer, lowers⟩ := exists_subtypes ((declaredType_iff_of_chain chain).mpr declared)
    refine ⟨inner, answer, fun lowest below => ?_⟩
    exact (chains lowest).mpr (((lowers lowest).mp below).trans chain)

example : ((empty.declareAll [.subtype "Film" "Work", .subtype "Work" "Film"]).subtypes "Film").toOption =
    some (.ofList ["Film", "Work"]) := by
  decide +kernel

/-! The order of declarations. -/

theorem eq_of_leads {first second : Hierarchy}
    (known : ∀ type, first.contains type = true ↔ second.contains type = true)
    (lower : ∀ upper lower, first.Leads TypeEntry.sub upper lower ↔ second.Leads TypeEntry.sub upper lower)
    (upper : ∀ lower upper, first.Leads TypeEntry.sup lower upper ↔ second.Leads TypeEntry.sup lower upper) :
    first = second := by
  obtain ⟨entries⟩ := first
  obtain ⟨otherEntries⟩ := second
  refine congrArg Hierarchy.mk (OrderedMap.ext fun type => ?_)
  have known := known type
  have lower := lower type
  have upper := upper type
  simp only [contains_eq_isSome, Leads, neighbours] at known lower upper
  cases found : entries.find? type with
  | none =>
    have missing : otherEntries.find? type = none := by simpa [found] using known
    exact missing.symm
  | some entry =>
    cases otherFound : otherEntries.find? type with
    | none => simp [found, otherFound] at known
    | some other =>
      rw [found, otherFound] at lower upper
      obtain ⟨sub, sup⟩ := entry
      obtain ⟨otherSub, otherSup⟩ := other
      have sameSub : sub = otherSub := OrderedSet.ext lower
      have sameSup : sup = otherSup := OrderedSet.ext upper
      rw [sameSub, sameSup]

theorem declareAll_eq_of_same {first second : List Declaration}
    (types : ∀ type, DeclaredType first type ↔ DeclaredType second type)
    (steps : ∀ lower upper, DeclaredStep first lower upper ↔ DeclaredStep second lower upper) :
    empty.declareAll first = empty.declareAll second := by
  refine eq_of_leads (fun type => ?_) (fun upper lower => ?_) fun lower upper => ?_
  · rw [contains_declareAll, contains_declareAll, types]
  · rw [leads_sub_declareAll, leads_sub_declareAll, steps]
  · rw [leads_sup_declareAll, leads_sup_declareAll, steps]

/-- Two hierarchies that cannot be told apart by asking them. -/
structure SameAnswers (first second : Hierarchy) : Prop where
  contains : ∀ type, first.contains type = second.contains type
  types : first.types = second.types
  subtypes : ∀ type, first.subtypes type = second.subtypes type
  supertypes : ∀ type, first.supertypes type = second.supertypes type

theorem Gains.eq_of_nothing {named : Iri → Prop} {linked : Iri → Iri → Prop}
    (gains : before.Gains after named linked) (unnamed : ∀ type, ¬named type)
    (unlinked : ∀ lower upper, ¬linked lower upper) : after = before := by
  refine eq_of_leads (fun type => ?_) (fun upper lower => ?_) fun lower upper => ?_
  · simp [gains.known, unnamed, unlinked]
  · simp [gains.lower, unlinked]
  · simp [gains.upper, unlinked]

/-- Hierarchies only depend on what is declared, not on the order and the kinds of declarations. A faulty
vocabulary declares what stands before its fault, and triples with an end that is no IRI, with another
predicate or with another class declare nothing. -/
theorem declarations_commute :
    (∀ first second : List Declaration,
      (∀ type, DeclaredType first type ↔ DeclaredType second type) →
      (∀ lower upper, DeclaredStep first lower upper ↔ DeclaredStep second lower upper) →
      SameAnswers (empty.declareAll first) (empty.declareAll second)) ∧
    (∀ glyphs, (Turtle.Document.ofGlyphs glyphs).complete = false →
      ∃ stated, Turtle.FaultyAfter glyphs stated) ∧
    (∀ glyphs stated, Turtle.FaultyAfter glyphs stated → ∀ hierarchy : Hierarchy,
      hierarchy.load (Turtle.Document.ofGlyphs glyphs) = hierarchy.load ⟨stated, true⟩) ∧
    ∀ (hierarchy : Hierarchy) (triple : Triple),
      (∀ type, triple.subject ≠ .iri type) ∨ (∀ type, triple.object ≠ .iri type) ∨
        (triple.predicate ≠ rdfType ∧ triple.predicate ≠ rdfsSubClassOf) ∨
        (triple.predicate = rdfType ∧ triple.object ≠ .iri owlClass ∧ triple.object ≠ .iri rdfsClass) →
      hierarchy.addTriple triple = hierarchy := by
  refine ⟨fun first second types steps => ?_, fun glyphs faulty => ?_,
    fun glyphs stated faulty hierarchy => ?_, fun hierarchy triple idle => ?_⟩
  · rw [declareAll_eq_of_same types steps]
    exact ⟨fun _ => rfl, rfl, fun _ => rfl, fun _ => rfl⟩
  · exact ⟨_, Turtle.faultyAfter_iff.mpr (by rw [← faulty])⟩
  · rw [Turtle.faultyAfter_iff.mp faulty]
    rfl
  · have differ : rdfsSubClassOf ≠ rdfType := by decide
    refine (gains_addTriple triple).eq_of_nothing (fun type => ?_) fun lower upper => ?_
    · rintro ⟨subject, predicate, object | object⟩ <;> simp_all
    · rintro ⟨subject, predicate, object⟩
      simp_all

end

/-- A subclass relation that is stated in a faulty vocabulary, beside a triple about a blank node. -/
theorem declarations_commute_film :
    let graded : List Triple := [⟨.iri "ex:Short", rdfsSubClassOf, .iri "ex:Film"⟩]
    let faulty := Text.glyphsOfText
      "<ex:Short> <http://www.w3.org/2000/01/rdf-schema#subClassOf> <ex:Film> . <ex:Film> ."
    let idle : Triple := ⟨.blank "work", rdfsSubClassOf, .iri "ex:Film"⟩
    SameAnswers (empty.declareAll [.subtype "ex:Short" "ex:Film", .type "ex:Person"])
        (empty.declareAll [.type "ex:Film",
          .vocabulary ⟨⟨.iri "ex:Person", rdfType, .iri owlClass⟩ :: idle :: graded, false⟩]) ∧
      (Turtle.Document.ofGlyphs faulty).complete = false ∧
      (∃ stated, Turtle.FaultyAfter faulty stated) ∧ Turtle.FaultyAfter faulty graded ∧
      empty.load (Turtle.Document.ofGlyphs faulty) = empty.load ⟨graded, true⟩ ∧
      empty.addTriple idle = empty := by
  intro graded faulty idle
  obtain ⟨commute, faults, loads, idles⟩ := declarations_commute
  have read : Turtle.Document.ofGlyphs faulty = ⟨graded, false⟩ := by decide +kernel
  have incomplete : (Turtle.Document.ofGlyphs faulty).complete = false := by rw [read]
  have after := Turtle.faultyAfter_iff.mpr read
  have differ : rdfsSubClassOf ≠ rdfType := by decide
  refine ⟨commute _ _ (fun type => ?_) fun lower upper => ?_, incomplete, faults faulty incomplete, after,
    loads faulty graded after empty, idles empty idle (Or.inl fun _ => nofun)⟩
  · simp [DeclaredType, DeclaredStep, Declaration.Names, Declaration.Links, Rdf.Triple.Names,
      Rdf.Triple.Links, graded, idle, differ, differ.symm, exists_or, eq_comm, or_comm, or_left_comm]
  · simp [DeclaredStep, Declaration.Links, Rdf.Triple.Links, graded, idle, differ.symm, eq_comm]

end Hierarchy
end PlanGraph
