import PlanGraph.Proofs.Collections
import PlanGraph.Sparql.Query

/-! The roots of triple patterns and of queries. A root is a subject that has a name and is no object,
unless all named subjects are objects. Of a query only the triple patterns in its blocks count, however
its operators are nested, and its expressions and property paths do not matter. -/

set_option autoImplicit false
namespace PlanGraph

/-- Variables and IRIs have names. Blank nodes and literals have none. -/
inductive PatternTerm.IsNamed : PatternTerm → Prop
  | ofVariable (name : String) : IsNamed (.variable name)
  | ofIri (name : Iri) : IsNamed (.fixed (.iri name))

section
variable (among : TriplePattern → Prop) (term : PatternTerm)

def IsSubject : Prop := ∃ pattern, among pattern ∧ pattern.subject = term

def IsObject : Prop := ∃ pattern, among pattern ∧ pattern.object = term

structure IsRoot : Prop where
  named : term.IsNamed
  subject : IsSubject among term
  first : ¬IsObject among term ∨
    ∀ other : PatternTerm, other.IsNamed → IsSubject among other → IsObject among other

end

/-- A named subject is a root, unless it is an object while another one is none; that one is a root then. -/
theorem exists_isRoot {among : TriplePattern → Prop} {term : PatternTerm} (named : term.IsNamed)
    (subject : IsSubject among term) : ∃ root, IsRoot among root := by
  by_cases all : ∀ other : PatternTerm, other.IsNamed → IsSubject among other → IsObject among other
  · exact ⟨term, named, subject, Or.inr all⟩
  · obtain ⟨other, missed⟩ := Classical.not_forall.mp all
    obtain ⟨otherNamed, missed⟩ := Classical.not_imp.mp missed
    obtain ⟨also, free⟩ := Classical.not_imp.mp missed
    exact ⟨other, otherNamed, also, Or.inl free⟩

/-- The roots are those of the triple patterns. -/
structure Roots.Represents (roots : Roots) (among : TriplePattern → Prop) : Prop where
  contains : ∀ term, roots.contains term = true ↔ IsRoot among term
  isEmpty : roots.isEmpty = true ↔ ∀ term : PatternTerm, IsSubject among term → ¬term.IsNamed

namespace Roots
variable {terms : List PatternTerm} {patterns others : List TriplePattern} {term : PatternTerm}

theorem contains_ofTerms : (ofTerms terms).contains term = true ↔ term.IsNamed ∧ term ∈ terms := by
  constructor
  · intro listed
    unfold contains ofTerms at listed
    split at listed
    · obtain ⟨other, member, same⟩ : ∃ other ∈ terms, other.variable? = some _ := by
        simpa using listed
      unfold PatternTerm.variable? at same
      split at same
      · cases same
        exact ⟨.ofVariable _, member⟩
      · cases same
    · obtain ⟨other, member, same⟩ : ∃ other ∈ terms, other.iri? = some _ := by
        simpa using listed
      unfold PatternTerm.iri? at same
      split at same
      · cases same
        exact ⟨.ofIri _, member⟩
      · cases same
    · cases listed
  · rintro ⟨named, member⟩
    cases named with
    | ofVariable name =>
      have found : name ∈ terms.filterMap PatternTerm.variable? :=
        List.mem_filterMap.mpr ⟨_, member, rfl⟩
      simpa [contains, ofTerms] using found
    | ofIri name =>
      have found : name ∈ terms.filterMap PatternTerm.iri? :=
        List.mem_filterMap.mpr ⟨_, member, rfl⟩
      simpa [contains, ofTerms] using found

theorem isNamed_of_contains {roots : Roots} (listed : roots.contains term = true) : term.IsNamed := by
  unfold contains at listed
  split at listed
  · exact .ofVariable _
  · exact .ofIri _
  · cases listed

theorem eq_of_contains {first second : Roots}
    (same : ∀ term, first.contains term = true ↔ second.contains term = true) : first = second := by
  have names : first.variableNames = second.variableNames :=
    OrderedSet.ext fun name => by simpa [contains] using same (.variable name)
  have iris : first.iris = second.iris :=
    OrderedSet.ext fun name => by simpa [contains] using same (.fixed (.iri name))
  cases first
  cases second
  cases names
  cases iris
  rfl

theorem isEmpty_iff {roots : Roots} :
    roots.isEmpty = true ↔ ∀ term, ¬roots.contains term = true := by
  unfold isEmpty
  rw [Bool.and_eq_true, OrderedSet.isEmpty_iff, OrderedSet.isEmpty_iff]
  constructor
  · rintro ⟨names, iris⟩ term listed
    cases isNamed_of_contains listed with
    | ofVariable name => exact names name (by simpa [contains] using listed)
    | ofIri name => exact iris name (by simpa [contains] using listed)
  · intro none
    exact ⟨fun name listed => none (.variable name) (by simpa [contains] using listed),
      fun name listed => none (.fixed (.iri name)) (by simpa [contains] using listed)⟩

/-! Triple patterns. -/

theorem mem_subjects : term ∈ patterns.map TriplePattern.subject ↔ IsSubject (· ∈ patterns) term :=
  List.mem_map

theorem mem_objects : term ∈ patterns.map TriplePattern.object ↔ IsObject (· ∈ patterns) term :=
  List.mem_map

theorem contains_free_subjects :
    (ofTerms ((patterns.map TriplePattern.subject).filter fun subject =>
        !(patterns.map TriplePattern.object).contains subject)).contains term = true ↔
      term.IsNamed ∧ IsSubject (· ∈ patterns) term ∧ ¬IsObject (· ∈ patterns) term := by
  rw [contains_ofTerms, List.mem_filter, mem_subjects, ← mem_objects]
  simp only [Bool.not_eq_true', List.contains_eq_mem, decide_eq_false_iff_not]

theorem contains_ofPatterns :
    (ofPatterns patterns).contains term = true ↔ IsRoot (· ∈ patterns) term := by
  unfold ofPatterns
  dsimp only
  split
  · next none =>
    have all (other : PatternTerm) (named : other.IsNamed) (subject : IsSubject (· ∈ patterns) other) :
        IsObject (· ∈ patterns) other :=
      Classical.byContradiction fun free =>
        isEmpty_iff.mp none other (contains_free_subjects.mpr ⟨named, subject, free⟩)
    rw [contains_ofTerms, mem_subjects]
    exact ⟨fun ⟨named, subject⟩ => ⟨named, subject, Or.inr all⟩,
      fun root => ⟨root.named, root.subject⟩⟩
  · next some =>
    rw [contains_free_subjects]
    refine ⟨fun ⟨named, subject, free⟩ => ⟨named, subject, Or.inl free⟩, fun root => ?_⟩
    refine ⟨root.named, root.subject, root.first.resolve_right fun all => some ?_⟩
    refine isEmpty_iff.mpr fun other listed => ?_
    obtain ⟨named, subject, free⟩ := contains_free_subjects.mp listed
    exact free (all other named subject)

theorem represents_ofPatterns (patterns : List TriplePattern) :
    (ofPatterns patterns).Represents (· ∈ patterns) where
  contains := fun _ => contains_ofPatterns
  isEmpty := by
    rw [isEmpty_iff]
    constructor
    · intro none term subject named
      obtain ⟨root, starts⟩ := exists_isRoot named subject
      exact none root (contains_ofPatterns.mpr starts)
    · intro unnamed term listed
      have root := contains_ofPatterns.mp listed
      exact unnamed term root.subject root.named

/-- A blank node is no object here, but it is no root either, so the subject that is left is one. -/
example : ofPatterns [⟨.fixed (.blank "b"), .iri "p", .variable "x"⟩, ⟨.variable "x", .iri "p", .iri "s"⟩] =
    ⟨.ofList ["x"], ∅⟩ := by decide

theorem ofPatterns_congr
    (subjects : ∀ term, IsSubject (· ∈ patterns) term ↔ IsSubject (· ∈ others) term)
    (objects : ∀ term, IsObject (· ∈ patterns) term ↔ IsObject (· ∈ others) term) :
    ofPatterns patterns = ofPatterns others := by
  refine eq_of_contains fun term => ?_
  rw [contains_ofPatterns, contains_ofPatterns]
  constructor
  · rintro ⟨named, subject, first⟩
    simp only [subjects, objects] at subject first
    exact ⟨named, subject, first⟩
  · rintro ⟨named, subject, first⟩
    simp only [← subjects, ← objects] at subject first
    exact ⟨named, subject, first⟩

end Roots

/-! The blocks of a query. -/

namespace Sparql.GraphPattern

def operands : GraphPattern → List GraphPattern
  | .triples _ => []
  | .path _ _ _ => []
  | .join left right => [left, right]
  | .leftJoin left right _ => [left, right]
  | .union left right => [left, right]
  | .minus left right => [left, right]
  | .filter _ inner => [inner]
  | .graph _ inner => [inner]
  | .extend inner _ _ => [inner]
  | .values _ _ => []
  | .orderBy inner _ => [inner]
  | .project inner _ => [inner]
  | .distinct inner => [inner]
  | .reduced inner => [inner]
  | .slice inner _ _ => [inner]
  | .group inner _ _ => [inner]
  | .service _ inner _ => [inner]

/-- The pattern has the triple pattern in a block, under any operators. Patterns that an expression
tests are no operands. -/
inductive Holds : GraphPattern → TriplePattern → Prop
  | block {patterns : List TriplePattern} {pattern : TriplePattern} (listed : pattern ∈ patterns) :
      Holds (.triples patterns) pattern
  | operand {outer inner : GraphPattern} {pattern : TriplePattern} (below : inner ∈ outer.operands)
      (holds : Holds inner pattern) : Holds outer pattern

/-- The pattern without its property paths, and without all that holds expressions: conditions, bound
values, keys and aggregates. -/
def bare : GraphPattern → GraphPattern
  | .triples patterns => .triples patterns
  | .path _ _ _ => .triples []
  | .join left right => .join left.bare right.bare
  | .leftJoin left right _ => .leftJoin left.bare right.bare none
  | .union left right => .union left.bare right.bare
  | .minus left right => .minus left.bare right.bare
  | .filter _ inner => inner.bare
  | .graph name inner => .graph name inner.bare
  | .extend inner _ _ => inner.bare
  | .values names rows => .values names rows
  | .orderBy inner _ => inner.bare
  | .project inner names => .project inner.bare names
  | .distinct inner => .distinct inner.bare
  | .reduced inner => .reduced inner.bare
  | .slice inner start length => .slice inner.bare start length
  | .group inner names _ => .group inner.bare names []
  | .service name inner silent => .service name inner.bare silent

variable {outer inner : GraphPattern} {pattern : TriplePattern}

theorem sizeOf_lt_of_operand (below : inner ∈ outer.operands) : sizeOf inner < sizeOf outer := by
  cases outer <;> simp [operands] at below ⊢ <;> grind

theorem block_or_operand : pattern ∈ outer.triplePatterns ↔
    (∃ patterns, outer = .triples patterns ∧ pattern ∈ patterns) ∨
      ∃ inner ∈ outer.operands, pattern ∈ inner.triplePatterns := by
  cases outer <;> simp [operands, triplePatterns]

theorem holds_of_mem {outer : GraphPattern} (listed : pattern ∈ outer.triplePatterns) :
    outer.Holds pattern := by
  rcases block_or_operand.mp listed with ⟨patterns, rfl, inside⟩ | ⟨inner, below, inside⟩
  · exact .block inside
  · exact .operand below (holds_of_mem inside)
termination_by sizeOf outer
decreasing_by exact sizeOf_lt_of_operand below

theorem mem_triplePatterns : pattern ∈ outer.triplePatterns ↔ outer.Holds pattern := by
  refine ⟨holds_of_mem, fun holds => ?_⟩
  induction holds with
  | block listed => exact listed
  | operand below _ ih => exact block_or_operand.mpr (Or.inr ⟨_, below, ih⟩)

theorem triplePatterns_bare (outer : GraphPattern) : outer.bare.triplePatterns = outer.triplePatterns := by
  fun_induction bare outer <;> simp_all [triplePatterns]

end Sparql.GraphPattern

theorem Roots.represents_ofQuery (query : Sparql.Query) :
    (Roots.ofQuery query).Represents query.pattern.Holds := by
  have listed : (· ∈ query.pattern.triplePatterns) = query.pattern.Holds :=
    funext fun pattern => propext Sparql.GraphPattern.mem_triplePatterns
  have represents := Roots.represents_ofPatterns query.pattern.triplePatterns
  rw [listed] at represents
  exact represents

theorem Roots.Represents.unique {among : TriplePattern → Prop} {first second : Roots}
    (represents : first.Represents among) (also : second.Represents among) : first = second :=
  Roots.eq_of_contains fun term => (represents.contains term).trans (also.contains term).symm

/-- The roots of triple patterns and of queries, whose expressions and property paths have no influence. -/
theorem roots_exact (patterns others : List TriplePattern) (query : Sparql.Query) :
    (Roots.ofPatterns patterns).Represents (· ∈ patterns) ∧
    ((∀ term, IsSubject (· ∈ patterns) term ↔ IsSubject (· ∈ others) term) →
      (∀ term, IsObject (· ∈ patterns) term ↔ IsObject (· ∈ others) term) →
      Roots.ofPatterns patterns = Roots.ofPatterns others) ∧
    (Roots.ofQuery query).Represents query.pattern.Holds ∧
    Roots.ofQuery query = Roots.ofPatterns query.pattern.bare.triplePatterns := by
  refine ⟨Roots.represents_ofPatterns patterns, Roots.ofPatterns_congr, Roots.represents_ofQuery query, ?_⟩
  rw [Sparql.GraphPattern.triplePatterns_bare]
  rfl

def circlePatterns : List TriplePattern :=
  [⟨.variable "a", .iri "knows", .variable "b"⟩, ⟨.variable "b", .iri "knows", .variable "a"⟩]

def circleQuery : Sparql.Query :=
  .ask (.filter (.holds (.triples [⟨.variable "c", .iri "knows", .variable "a"⟩])) (.triples circlePatterns))

theorem roots_exact_circle :
    Roots.ofPatterns circlePatterns = Roots.ofPatterns circlePatterns.reverse ∧
      (Roots.ofQuery circleQuery).Represents circleQuery.pattern.Holds ∧
      Roots.ofQuery circleQuery = ⟨.ofList ["a", "b"], ∅⟩ := by
  obtain ⟨_, congruent, represents, _⟩ := roots_exact circlePatterns circlePatterns.reverse circleQuery
  have subjects (term : PatternTerm) : IsSubject (· ∈ circlePatterns) term ↔
      IsSubject (· ∈ circlePatterns.reverse) term := by
    simp only [IsSubject, List.mem_reverse]
  have objects (term : PatternTerm) : IsObject (· ∈ circlePatterns) term ↔
      IsObject (· ∈ circlePatterns.reverse) term := by
    simp only [IsObject, List.mem_reverse]
  exact ⟨congruent subjects objects, represents, by decide⟩

end PlanGraph
