import Mathlib.Data.List.Forall2
import Mathlib.Data.List.Nodup
import PlanGraph.Proofs.Graph.WellFormed

/-! Walks through a forest, depth first. Where links fit together, the walks from all trees end, and
together they come to every step once, as deep as the chain of labels that leads there. -/

set_option autoImplicit false
namespace PlanGraph

theorem exists_forall₂ {α β : Type} {relation : α → β → Prop} {list : List α}
    (each : ∀ value ∈ list, ∃ image, relation value image) : ∃ images, List.Forall₂ relation list images := by
  induction list with
  | nil => exact ⟨[], .nil⟩
  | cons first rest ih =>
    obtain ⟨some, others⟩ := List.forall_mem_cons.mp each
    obtain ⟨image, relates⟩ := some
    obtain ⟨images, related⟩ := ih others
    exact ⟨image :: images, .cons relates related⟩

theorem exists_at_of_forall₂ {α β : Type} {relation : α → β → Prop} {first : List α} {second : List β}
    (related : List.Forall₂ relation first second) {place : Nat} {image : β}
    (found : second[place]? = some image) : ∃ value, first[place]? = some value ∧ relation value image := by
  induction related generalizing place with
  | nil => simp at found
  | cons relates _ ih =>
    cases place with
    | zero =>
      cases found
      exact ⟨_, rfl, relates⟩
    | succ place => exact ih found

structure Visit where
  depth : Nat
  id : StepId
  step : Step

namespace Forest

/-- The walk through some steps in turn. All steps below one of them, a level deeper, come before the next
one, and every number that is met names a step. -/
inductive Walks (forest : Forest) : Nat → List StepId → List Visit → Prop
  | done {depth : Nat} : Walks forest depth [] []
  | visit {depth : Nat} {id : StepId} {step : Step} {rest : List StepId} {below after : List Visit}
      (found : forest.steps[id]? = some step) (descends : Walks forest (depth + 1) step.children below)
      (continues : Walks forest depth rest after) :
      Walks forest depth (id :: rest) (⟨depth, id, step⟩ :: (below ++ after))

def Tour (forest : Forest) (walks : List (List Visit)) : Prop :=
  List.Forall₂ (fun tree visits => forest.Walks 1 tree.children visits) forest.trees walks

def Leads (forest : Forest) (node : ChainNode) (depth : Nat) (last : ChainNode) : Prop :=
  ∃ word, last ∈ forest.follow node word ∧ word.length = depth

variable {forest : Forest} {node last : ChainNode} {depth : Nat} {ids : List StepId}
  {visits : List Visit}

/-! Going down. -/

theorem leads_zero : forest.Leads node 0 last ↔ last = node := by
  unfold Leads
  constructor
  · rintro ⟨word, reached, short⟩
    cases List.eq_nil_of_length_eq_zero short
    exact List.mem_singleton.mp reached
  · rintro rfl
    exact ⟨[], List.mem_singleton.mpr rfl, rfl⟩

theorem Linked.leads_succ (links : forest.Linked) : forest.Leads node (depth + 1) last ↔
    ∃ child ∈ forest.childrenOf node, forest.Leads (.step child) depth last := by
  constructor
  · rintro ⟨word, reached, long⟩
    cases word with
    | nil => cases long
    | cons label rest =>
      obtain ⟨child, chosen, reached⟩ := List.mem_flatMap.mp reached
      exact ⟨child, (List.mem_filter.mp chosen).1, rest, reached, Nat.succ.inj long⟩
  · rintro ⟨child, below, rest, reached, long⟩
    obtain ⟨label, key⟩ := links.mem_childrenOf.mp below
    have chosen : child ∈ (forest.childrenOf node).filter fun id =>
        forest.steps[id]?.any (·.label == label) :=
      List.mem_filter.mpr ⟨below, hasLabel_iff.mpr ⟨node, key⟩⟩
    exact ⟨label :: rest, List.mem_flatMap.mpr ⟨child, chosen, reached⟩, congrArg Nat.succ long⟩

theorem Linked.lt_of_child (links : forest.Linked) {id child : StepId}
    (below : child ∈ forest.childrenOf (.step id)) : id < child := by
  obtain ⟨label, key⟩ := links.mem_childrenOf.mp below
  exact links.ordered child _ key

theorem Linked.child_lt_length (links : forest.Linked) {child : StepId}
    (below : child ∈ forest.childrenOf node) : child < forest.steps.length := by
  obtain ⟨label, key⟩ := links.mem_childrenOf.mp below
  rw [← length_keys]
  exact (List.getElem?_eq_some_iff.mp key).1

theorem childrenOf_tree {tree : TreeId} {root : SearchTree} (planted : forest.trees[tree]? = some root) :
    forest.childrenOf (.tree tree) = root.children := by
  simp [childrenOf, planted]

theorem childrenOf_step {id : StepId} {step : Step} (found : forest.steps[id]? = some step) :
    forest.childrenOf (.step id) = step.children := by
  simp [childrenOf, found]

/-- Numbers grow on the way down, so a child has less effort ahead of it. -/
theorem Linked.effort_of_child (links : forest.Linked) {id child : StepId} {step : Step} {effort : Nat}
    (found : forest.steps[id]? = some step) (listed : child ∈ step.children)
    (enough : forest.steps.length ≤ effort + 1 + id) : forest.steps.length ≤ effort + child := by
  have below : child ∈ forest.childrenOf (.step id) := (childrenOf_step found).symm ▸ listed
  calc forest.steps.length ≤ effort + 1 + id := enough
    _ = effort + (id + 1) := by rw [Nat.add_assoc, Nat.add_comm 1]
    _ ≤ effort + child := Nat.add_le_add_left (links.lt_of_child below) effort

theorem Linked.le_of_leads (links : forest.Linked) {first lower : StepId}
    (leads : forest.Leads (.step first) depth (.step lower)) : first ≤ lower := by
  induction depth generalizing first with
  | zero =>
    cases leads_zero.mp leads
    exact Nat.le_refl _
  | succ depth ih =>
    obtain ⟨child, below, leads⟩ := links.leads_succ.mp leads
    exact Nat.le_trans (Nat.le_of_lt (links.lt_of_child below)) (ih leads)

/-- No step lies below two children of a node, since its place names one of them. -/
theorem Linked.child_unique (links : forest.Linked) {first second lower : StepId} {other : Nat}
    (below : first ∈ forest.childrenOf node) (also : second ∈ forest.childrenOf node)
    (leads : forest.Leads (.step first) depth (.step lower))
    (again : forest.Leads (.step second) other (.step lower)) : first = second := by
  obtain ⟨word, reached, _⟩ := leads
  obtain ⟨otherWord, alsoReached, _⟩ := again
  obtain ⟨label, key⟩ := links.mem_childrenOf.mp below
  obtain ⟨otherLabel, otherKey⟩ := links.mem_childrenOf.mp also
  obtain ⟨step, found, keyed⟩ := key_at.mp key
  obtain ⟨above, parent, _⟩ := links.exists_at found
  have parent : forest.At node above := by
    rw [Step.key, Prod.mk.injEq] at keyed
    exact keyed.1 ▸ parent
  have here := (links.mem_follow (.step key parent)).mp reached
  have alsoHere := (links.mem_follow (.step otherKey parent)).mp alsoReached
  have same := Stands.place_unique here alsoHere
  simp only [Place.along, Place.below, Place.mk.injEq, List.append_assoc, List.singleton_append,
    List.append_cancel_left_eq, List.cons.injEq, true_and] at same
  exact links.step_unique key (same.1 ▸ otherKey)

/-! What a walk comes to. -/

theorem Linked.exists_walk (links : forest.Linked) (effort depth : Nat) (ids : List StepId)
    (bounded : ∀ id ∈ ids, id < forest.steps.length ∧ forest.steps.length ≤ effort + id) :
    ∃ visits, forest.Walks depth ids visits := by
  -- Effort is spent on the way down, and along siblings the list gets shorter.
  induction effort generalizing depth ids with
  | zero =>
    cases ids with
    | nil => exact ⟨[], .done⟩
    | cons id rest =>
      obtain ⟨inside, enough⟩ := bounded id List.mem_cons_self
      rw [Nat.zero_add] at enough
      exact absurd inside (Nat.not_lt.mpr enough)
  | succ effort ih =>
    induction ids with
    | nil => exact ⟨[], .done⟩
    | cons id rest others =>
      obtain ⟨⟨inside, enough⟩, later⟩ := List.forall_mem_cons.mp bounded
      have found : forest.steps[id]? = some forest.steps[id] := List.getElem?_eq_getElem inside
      have lower : ∀ child ∈ forest.steps[id].children,
          child < forest.steps.length ∧ forest.steps.length ≤ effort + child := by
        intro child listed
        have below : child ∈ forest.childrenOf (.step id) := (childrenOf_step found).symm ▸ listed
        exact ⟨links.child_lt_length below, links.effort_of_child found listed enough⟩
      obtain ⟨below, descends⟩ := ih (depth + 1) _ lower
      obtain ⟨after, continues⟩ := others later
      exact ⟨_, .visit found descends continues⟩

theorem Linked.mem_walk (links : forest.Linked) (walk : forest.Walks depth ids visits) {visit : Visit} :
    visit ∈ visits ↔ forest.steps[visit.id]? = some visit.step ∧ ∃ start ∈ ids, ∃ further,
      visit.depth = depth + further ∧ forest.Leads (.step start) further (.step visit.id) := by
  induction walk with
  | done => simp
  | @visit depth id step rest below after found _ _ ihBelow ihAfter =>
    have children := childrenOf_step found
    rw [List.mem_cons, List.mem_append, ihBelow, ihAfter]
    constructor
    · rintro (rfl | ⟨there, child, listed, further, deep, leads⟩ | ⟨there, start, listed, leads⟩)
      · exact ⟨found, id, List.mem_cons_self, 0, rfl, leads_zero.mpr rfl⟩
      · have leads := links.leads_succ.mpr ⟨child, children.symm ▸ listed, leads⟩
        exact ⟨there, id, List.mem_cons_self, further + 1, by omega, leads⟩
      · exact ⟨there, start, List.mem_cons_of_mem _ listed, leads⟩
    · rintro ⟨there, start, listed, further, deep, leads⟩
      rcases List.mem_cons.mp listed with rfl | later
      · cases further with
        | zero =>
          obtain ⟨visitDepth, visitId, visitStep⟩ := visit
          cases leads_zero.mp leads
          cases deep
          cases found.symm.trans there
          exact Or.inl rfl
        | succ further =>
          obtain ⟨child, inside, leads⟩ := links.leads_succ.mp leads
          exact Or.inr (Or.inl ⟨there, child, children ▸ inside, further, by omega, leads⟩)
      · exact Or.inr (Or.inr ⟨there, start, later, further, deep, leads⟩)

theorem Linked.nodup_walk (links : forest.Linked) (walk : forest.Walks depth ids visits)
    (distinct : ids.Nodup) (siblings : ∀ id ∈ ids, id ∈ forest.childrenOf node) :
    (visits.map Visit.id).Nodup := by
  induction walk generalizing node with
  | done => exact .nil
  | @visit depth id step rest below after found descends continues ihBelow ihAfter =>
    have children := childrenOf_step found
    obtain ⟨fresh, restDistinct⟩ := List.nodup_cons.mp distinct
    obtain ⟨first, others⟩ := List.forall_mem_cons.mp siblings
    have belowNodup := ihBelow (children ▸ links.nodup_childrenOf) fun _ listed => children.symm ▸ listed
    have afterNodup := ihAfter restDistinct others
    have leadsBelow : ∀ visit ∈ below, ∃ child ∈ forest.childrenOf (.step id), ∃ further,
        forest.Leads (.step child) further (.step visit.id) := fun visit member => by
      obtain ⟨_, child, listed, further, _, leads⟩ := (links.mem_walk descends).mp member
      exact ⟨child, children.symm ▸ listed, further, leads⟩
    -- What comes after lies below a later sibling, so it does not lie below this step.
    have apart : ∀ visit ∈ after, ∀ further, ¬forest.Leads (.step id) further (.step visit.id) := by
      intro visit member further leads
      obtain ⟨_, start, listed, _, _, again⟩ := (links.mem_walk continues).mp member
      cases links.child_unique first (others start listed) leads again
      exact fresh listed
    rw [List.map_cons, List.map_append, List.nodup_cons, List.nodup_append]
    refine ⟨fun again => ?_, belowNodup, afterNodup, ?_⟩
    · rcases List.mem_append.mp again with inside | later
      · obtain ⟨visit, member, same⟩ := List.mem_map.mp inside
        obtain ⟨child, under, further, leads⟩ := leadsBelow visit member
        have upper := links.lt_of_child under
        have lower := links.le_of_leads leads
        rw [same] at lower
        exact absurd upper (Nat.not_lt.mpr lower)
      · obtain ⟨visit, member, same⟩ := List.mem_map.mp later
        exact apart visit member 0 (leads_zero.mpr (congrArg ChainNode.step same))
    · rintro number inside _ later rfl
      obtain ⟨visit, member, rfl⟩ := List.mem_map.mp inside
      obtain ⟨other, alsoMember, same⟩ := List.mem_map.mp later
      obtain ⟨child, under, further, leads⟩ := leadsBelow visit member
      have whole := links.leads_succ.mpr ⟨child, under, leads⟩
      exact apart other alsoMember _ (same.symm ▸ whole)

/-! The order of a walk. -/

theorem Walks.depth_of_head (walk : forest.Walks depth ids visits) :
    ∀ visit ∈ visits.head?, visit.depth = depth := by
  cases walk with
  | done => simp
  | visit => simp

theorem Walks.depth_le (walk : forest.Walks depth ids visits) : ∀ visit ∈ visits, depth ≤ visit.depth := by
  induction walk with
  | done => simp
  | visit _ _ _ ihBelow ihAfter =>
    intro visit member
    rcases List.mem_cons.mp member with rfl | member
    · exact Nat.le_refl _
    · rcases List.mem_append.mp member with below | after
      · exact Nat.le_of_succ_le (ihBelow visit below)
      · exact ihAfter visit after

/-- A visit is followed by the walk through all that lies below the step, and only then by a step that is
no deeper. -/
theorem Walks.descend_first (walk : forest.Walks depth ids visits) {before after : List Visit}
    {visit : Visit} (parts : visits = before ++ visit :: after) : ∃ below rest, after = below ++ rest ∧
      forest.Walks (visit.depth + 1) visit.step.children below ∧
        ∀ next ∈ rest.head?, next.depth ≤ visit.depth := by
  induction walk generalizing before after with
  | done => simp at parts
  | @visit depth id step others below later _ descends continues ihBelow ihAfter =>
    cases before with
    | nil =>
      cases parts
      exact ⟨below, later, rfl, descends, fun next first =>
        Nat.le_of_eq (continues.depth_of_head next first)⟩
    | cons first before =>
      obtain ⟨_, parts⟩ := List.cons.inj parts
      rcases List.append_eq_append_iff.mp parts with ⟨gap, _, behind⟩ | ⟨gap, inside, behind⟩
      · exact ihAfter behind
      · -- The visit lies below the first step, or comes first of what is after it.
        cases gap with
        | nil =>
          have start : later = [] ++ visit :: after := behind.symm
          exact ihAfter start
        | cons start gap =>
          obtain ⟨rfl, rfl⟩ := List.cons.inj behind
          obtain ⟨under, rest, rfl, walk, shallow⟩ := ihBelow inside
          refine ⟨under, rest ++ later, List.append_assoc .., walk, fun next first => ?_⟩
          cases rest with
          | cons head tail => exact shallow next first
          | nil =>
            have deep := descends.depth_le visit (by simp [inside])
            have level := continues.depth_of_head next first
            omega

/-! All walks. -/

variable {walks : List (List Visit)} {tree : TreeId}

theorem Linked.mem_walk_children (links : forest.Linked)
    (walk : forest.Walks depth (forest.childrenOf node) visits) {visit : Visit} :
    visit ∈ visits ↔ forest.steps[visit.id]? = some visit.step ∧ ∃ further,
      visit.depth = depth + further ∧ forest.Leads node (further + 1) (.step visit.id) := by
  rw [links.mem_walk walk]
  refine and_congr_right fun _ => ?_
  constructor
  · rintro ⟨start, below, further, deep, leads⟩
    exact ⟨further, deep, links.leads_succ.mpr ⟨start, below, leads⟩⟩
  · rintro ⟨further, deep, leads⟩
    obtain ⟨start, below, leads⟩ := links.leads_succ.mp leads
    exact ⟨start, below, further, deep, leads⟩

theorem Linked.exists_tour (links : forest.Linked) : ∃ walks, forest.Tour walks := by
  refine exists_forall₂ fun tree member => ?_
  obtain ⟨id, found⟩ := List.getElem?_of_mem member
  refine links.exists_walk forest.steps.length 1 tree.children fun child listed => ?_
  have below : child ∈ forest.childrenOf (.tree id) := (childrenOf_tree found).symm ▸ listed
  exact ⟨links.child_lt_length below, Nat.le_add_right ..⟩

theorem Tour.walk_at (tour : forest.Tour walks) (found : walks[tree]? = some visits) :
    forest.Walks 1 (forest.childrenOf (.tree tree)) visits := by
  obtain ⟨root, planted, walk⟩ := exists_at_of_forall₂ tour found
  exact (childrenOf_tree planted).symm ▸ walk

theorem Linked.mem_tour (links : forest.Linked) (tour : forest.Tour walks)
    (found : walks[tree]? = some visits) {visit : Visit} :
    visit ∈ visits ↔ forest.steps[visit.id]? = some visit.step ∧
      forest.Leads (.tree tree) visit.depth (.step visit.id) := by
  rw [links.mem_walk_children (tour.walk_at found)]
  refine and_congr_right fun _ => ?_
  constructor
  · rintro ⟨further, deep, leads⟩
    rw [deep, Nat.add_comm]
    exact leads
  · intro leads
    cases deep : visit.depth with
    | zero =>
      rw [deep] at leads
      cases leads_zero.mp leads
    | succ further => exact ⟨further, Nat.add_comm .., deep ▸ leads⟩

theorem Linked.tour_perm (links : forest.Linked) (tour : forest.Tour walks) :
    (walks.flatten.map Visit.id).Perm (List.range forest.steps.length) := by
  have distinct : (walks.flatten.map Visit.id).Nodup := by
    rw [List.map_flatten, List.nodup_flatten]
    constructor
    · intro ids member
      obtain ⟨visits, inside, rfl⟩ := List.mem_map.mp member
      obtain ⟨tree, found⟩ := List.getElem?_of_mem inside
      exact links.nodup_walk (tour.walk_at found) links.nodup_childrenOf fun _ => id
    · -- A step that two walks come to would be reached from two trees.
      rw [List.pairwise_map, List.pairwise_iff_getElem]
      intro tree other bound otherBound before id here there
      obtain ⟨visit, inside, rfl⟩ := List.mem_map.mp here
      obtain ⟨second, alsoInside, same⟩ := List.mem_map.mp there
      obtain ⟨found, word, reached, _⟩ :=
        (links.mem_tour tour (List.getElem?_eq_getElem bound)).mp inside
      obtain ⟨_, otherWord, again, _⟩ :=
        (links.mem_tour tour (List.getElem?_eq_getElem otherBound)).mp alsoInside
      obtain ⟨_, _, _, _, only⟩ := links.exists_follow (List.getElem?_eq_some_iff.mp found).1
      have equal := (only tree word reached).1.trans (only other otherWord (same ▸ again)).1.symm
      exact Nat.ne_of_lt before equal
  refine (List.perm_ext_iff_of_nodup distinct List.nodup_range).mpr fun id => ?_
  rw [List.mem_range, List.mem_map]
  constructor
  · rintro ⟨visit, member, rfl⟩
    obtain ⟨visits, inside, member⟩ := List.mem_flatten.mp member
    obtain ⟨tree, found⟩ := List.getElem?_of_mem inside
    exact (List.getElem?_eq_some_iff.mp ((links.mem_tour tour found).mp member).1).1
  -- Every step is reached from some tree, and the walk from there comes to it.
  · intro bound
    obtain ⟨tree, word, reached, _⟩ := links.exists_follow bound
    obtain ⟨_, root⟩ := tree_of_step_mem_follow reached
    have planted : tree < walks.length := by
      rw [← tour.length_eq, ← length_fingerprints]
      exact Stands.tree_bound root
    have member : ⟨word.length, id, forest.steps[id]⟩ ∈ walks[tree] :=
      (links.mem_tour tour (List.getElem?_eq_getElem planted)).mpr
        ⟨List.getElem?_eq_getElem bound, word, reached, rfl⟩
    exact ⟨_, List.mem_flatten.mpr ⟨_, List.getElem_mem planted, member⟩, rfl⟩

end Forest
end PlanGraph
