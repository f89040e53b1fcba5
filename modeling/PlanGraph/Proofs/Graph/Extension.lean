import PlanGraph.Proofs.Graph.Building

/-! Building only extends. Whatever entries a builder is given, failing ones included, what its graph
holds already stays under its number or identifier: sets, lists of children and lengths grow at most,
checks that were settled stay, and described cycles are described in the same way for ever. -/

set_option autoImplicit false
namespace PlanGraph

/-- Whatever the first list has under a number, the second has an extension of it there. -/
def KeepsNumbers {α : Type} (extension : α → α → Prop) (first second : List α) : Prop :=
  ∀ (number : Nat) (value : α), first[number]? = some value →
    ∃ later, second[number]? = some later ∧ extension value later

structure PatternNode.ExtendedBy (node later : PatternNode) : Prop where
  pattern : later.pattern = node.pattern
  check : ∀ value, node.check = some value → later.check = some value

structure SearchTree.ExtendedBy (tree later : SearchTree) : Prop where
  fingerprint : later.fingerprint = tree.fingerprint
  fromTypes : ∀ type, type ∈ tree.fromTypes → type ∈ later.fromTypes
  seeds : ∀ seed, seed ∈ tree.seeds → seed ∈ later.seeds
  length : tree.length ≤ later.length
  cycles : ∀ id, id ∈ tree.cycles → id ∈ later.cycles
  patterns : ∀ id, id ∈ tree.patterns → id ∈ later.patterns
  children : tree.children <+: later.children

structure Step.ExtendedBy (step later : Step) : Prop where
  parent : later.parent = step.parent
  label : later.label = step.label
  types : ∀ type, type ∈ step.types → type ∈ later.types
  patterns : ∀ id, id ∈ step.patterns → id ∈ later.patterns
  check : step.check = some true → later.check = some true
  cycleStarts : ∀ id, id ∈ step.cycleStarts → id ∈ later.cycleStarts
  children : step.children <+: later.children

structure Forest.ExtendedBy (forest later : Forest) : Prop where
  trees : KeepsNumbers SearchTree.ExtendedBy forest.trees later.trees
  steps : KeepsNumbers Step.ExtendedBy forest.steps later.steps

structure Graph.ExtendedBy (graph later : Graph) : Prop where
  prefixes : later.prefixes = graph.prefixes
  spaces : graph.spaces <+: later.spaces
  patterns : KeepsNumbers PatternNode.ExtendedBy graph.patterns later.patterns
  forest : graph.forest.ExtendedBy later.forest
  cycles : ∀ id cycle, graph.cycles.find? id = some cycle → later.cycles.find? id = some cycle

/-! Numbered lists. -/

namespace KeepsNumbers
variable {α : Type} {extension : α → α → Prop} {first second third : List α}

theorem refl (same : ∀ value, extension value value) (list : List α) : KeepsNumbers extension list list :=
  fun _ value found => ⟨value, found, same value⟩

theorem trans (composed : ∀ {first second third}, extension first second → extension second third →
      extension first third) (early : KeepsNumbers extension first second)
    (late : KeepsNumbers extension second third) : KeepsNumbers extension first third := by
  intro number value found
  obtain ⟨next, there, larger⟩ := early number value found
  obtain ⟨last, here, largest⟩ := late number next there
  exact ⟨last, here, composed larger largest⟩

theorem append (same : ∀ value, extension value value) (list more : List α) :
    KeepsNumbers extension list (list ++ more) := by
  intro number value found
  have bound := (List.getElem?_eq_some_iff.mp found).1
  exact ⟨value, (List.getElem?_append_left bound).trans found, same value⟩

theorem modify (same : ∀ value, extension value value) {change : α → α}
    (larger : ∀ value, extension value (change value)) (list : List α) (place : Nat) :
    KeepsNumbers extension list (list.modify place change) := by
  intro number value found
  rw [getElem?_modify_eq_ite, found]
  split
  · exact ⟨change value, rfl, larger value⟩
  · exact ⟨value, rfl, same value⟩

end KeepsNumbers

/-! Extension is reflexive and transitive. -/

theorem PatternNode.ExtendedBy.refl (node : PatternNode) : node.ExtendedBy node := ⟨rfl, fun _ => id⟩

theorem SearchTree.ExtendedBy.refl (tree : SearchTree) : tree.ExtendedBy tree :=
  ⟨rfl, fun _ => id, fun _ => id, Nat.le_refl _, fun _ => id, fun _ => id, List.prefix_rfl⟩

theorem SearchTree.ExtendedBy.trans {tree later last : SearchTree} (first : tree.ExtendedBy later)
    (second : later.ExtendedBy last) : tree.ExtendedBy last where
  fingerprint := second.fingerprint.trans first.fingerprint
  fromTypes := fun type known => second.fromTypes type (first.fromTypes type known)
  seeds := fun seed known => second.seeds seed (first.seeds seed known)
  length := Nat.le_trans first.length second.length
  cycles := fun id known => second.cycles id (first.cycles id known)
  patterns := fun id known => second.patterns id (first.patterns id known)
  children := first.children.trans second.children

theorem Step.ExtendedBy.refl (step : Step) : step.ExtendedBy step :=
  ⟨rfl, rfl, fun _ => id, fun _ => id, id, fun _ => id, List.prefix_rfl⟩

theorem Step.ExtendedBy.trans {step later last : Step} (first : step.ExtendedBy later)
    (second : later.ExtendedBy last) : step.ExtendedBy last where
  parent := second.parent.trans first.parent
  label := second.label.trans first.label
  types := fun type known => second.types type (first.types type known)
  patterns := fun id known => second.patterns id (first.patterns id known)
  check := fun settled => second.check (first.check settled)
  cycleStarts := fun id known => second.cycleStarts id (first.cycleStarts id known)
  children := first.children.trans second.children

/-! The changes that an inclusion makes to single steps and trees are extensions. -/

theorem Step.extendedBy_expect (step : Step) (type : Iri) : step.ExtendedBy (step.expect type) :=
  { Step.ExtendedBy.refl step with types := fun _ known => OrderedSet.mem_insert.mpr (Or.inr known) }

theorem Step.extendedBy_serve (step : Step) (pattern : PatternId) : step.ExtendedBy (step.serve pattern) :=
  { Step.ExtendedBy.refl step with patterns := fun _ known => OrderedSet.mem_insert.mpr (Or.inr known) }

theorem Step.extendedBy_requireCheck (step : Step) : step.ExtendedBy step.requireCheck :=
  { Step.ExtendedBy.refl step with check := fun _ => rfl }

theorem SearchTree.extendedBy_serve (tree : SearchTree) (pattern : PatternId) :
    tree.ExtendedBy (tree.serve pattern) :=
  { SearchTree.ExtendedBy.refl tree with
    patterns := fun _ known => OrderedSet.mem_insert.mpr (Or.inr known) }

/-! Patterns. -/

theorem keepsNumbers_register (registry : PatternRegistry) (pattern : TriplePattern)
    (hint : Option Bool) :
    KeepsNumbers PatternNode.ExtendedBy registry.nodes (registry.register pattern hint).1.nodes := by
  have hinted (node : PatternNode) : node.ExtendedBy { node with check := node.check <|> hint } :=
    ⟨rfl, fun value settled => by simp [settled]⟩
  unfold PatternRegistry.register
  split
  · exact .modify PatternNode.ExtendedBy.refl hinted _ _
  · exact .append PatternNode.ExtendedBy.refl _ _

/-! Forests: every operation extends. -/

namespace Forest
variable {forest later last : Forest}

theorem ExtendedBy.refl (forest : Forest) : forest.ExtendedBy forest :=
  ⟨.refl SearchTree.ExtendedBy.refl _, .refl Step.ExtendedBy.refl _⟩

theorem ExtendedBy.trans (first : forest.ExtendedBy later) (second : later.ExtendedBy last) :
    forest.ExtendedBy last :=
  ⟨first.trees.trans .trans second.trees, first.steps.trans .trans second.steps⟩

theorem extendedBy_modifyTree {change : SearchTree → SearchTree}
    (larger : ∀ tree : SearchTree, tree.ExtendedBy (change tree)) (forest : Forest) (id : TreeId) :
    forest.ExtendedBy (forest.modifyTree id change) :=
  ⟨.modify SearchTree.ExtendedBy.refl larger _ _, .refl Step.ExtendedBy.refl _⟩

theorem extendedBy_modifyStep {change : Step → Step}
    (larger : ∀ step : Step, step.ExtendedBy (change step)) (forest : Forest) (id : StepId) :
    forest.ExtendedBy (forest.modifyStep id change) :=
  ⟨.refl SearchTree.ExtendedBy.refl _, .modify Step.ExtendedBy.refl larger _ _⟩

theorem extendedBy_addChild (forest : Forest) (node : ChainNode) (child : StepId) :
    forest.ExtendedBy (forest.addChild node child) := by
  cases node with
  | tree id =>
    refine extendedBy_modifyTree (fun tree => ?_) forest id
    exact { SearchTree.ExtendedBy.refl tree with children := List.prefix_append _ _ }
  | step id =>
    refine extendedBy_modifyStep (fun step => ?_) forest id
    exact { Step.ExtendedBy.refl step with children := List.prefix_append _ _ }

theorem extendedBy_addPattern (forest : Forest) (node : ChainNode) (pattern : PatternId) :
    forest.ExtendedBy (forest.addPattern node pattern) := by
  cases node with
  | tree id =>
    exact extendedBy_modifyTree (fun tree => tree.extendedBy_serve pattern) forest id
  | step id =>
    exact extendedBy_modifyStep (fun step => step.extendedBy_serve pattern) forest id

theorem extendedBy_requireCheck (forest : Forest) (node : ChainNode) :
    forest.ExtendedBy (forest.requireCheck node) := by
  cases node with
  | tree id => exact .refl forest
  | step id =>
    exact extendedBy_modifyStep Step.extendedBy_requireCheck forest id

theorem extendedBy_plant (forest : Forest) (fingerprint : Fingerprint) :
    forest.ExtendedBy (forest.plant fingerprint).1 := by
  cases found : forest.treeWith? fingerprint with
  | some id => exact plant_of_some found ▸ .refl forest
  | none =>
    rw [plant_of_none found]
    exact ⟨.append SearchTree.ExtendedBy.refl _ _, .refl Step.ExtendedBy.refl _⟩

theorem extendedBy_grow (forest : Forest) (node : ChainNode) (label : StepLabel) :
    forest.ExtendedBy (forest.grow node label).1 := by
  cases found : forest.child? node label with
  | some id => exact grow_of_some found ▸ .refl forest
  | none =>
    rw [grow_of_none found]
    have appended : forest.ExtendedBy (forest.withStep (.grown node label)) :=
      ⟨.refl SearchTree.ExtendedBy.refl _, .append Step.ExtendedBy.refl _ _⟩
    exact appended.trans (extendedBy_addChild _ node _)

theorem extendedBy_descend (forest : Forest) (node : ChainNode) (word : List (StepLabel × Iri)) :
    forest.ExtendedBy (forest.descend node word).1 := by
  induction word generalizing forest node with
  | nil => exact .refl forest
  | cons letter rest ih =>
    obtain ⟨label, type⟩ := letter
    have grown := extendedBy_grow forest node label
    have typed := extendedBy_modifyStep (fun step => step.extendedBy_expect type)
      (forest.grow node label).1 (forest.grow node label).2
    exact (grown.trans typed).trans (ih _ _)

theorem extendedBy_includePath (forest : Forest) (id : PatternId) (pattern : TriplePattern)
    (cycles : List CycleId) (path : PlannedPath) (fromType : Iri) :
    forest.ExtendedBy (forest.includePath id pattern cycles path fromType) := by
  have entered (tree : SearchTree) : tree.ExtendedBy (tree.enterPath path fromType cycles) :=
    { SearchTree.ExtendedBy.refl tree with
      fromTypes := fun _ known => OrderedSet.mem_insert.mpr (Or.inr known)
      seeds := fun _ known => OrderedSet.mem_insertAll.mpr (Or.inr known)
      cycles := fun _ known => OrderedSet.mem_insertAll.mpr (Or.inr known)
      length := Nat.le_add_right _ _ }
  have rooted := (extendedBy_plant forest (fingerprint path.seeds)).trans
    (extendedBy_modifyTree entered _ (forest.plant (fingerprint path.seeds)).2)
  have descended := rooted.trans (extendedBy_descend _ (.tree (forest.plant (fingerprint path.seeds)).2)
    (labelWord pattern.assertedType? path.steps))
  have attached (last : ChainNode) := descended.trans (extendedBy_addPattern _ last id)
  unfold includePath
  dsimp only
  split
  · exact (attached _).trans (extendedBy_requireCheck _ _)
  · exact attached _

theorem extendedBy_takeIn (forest : Forest) (id : PatternId) (inclusion : Inclusion) :
    forest.ExtendedBy (forest.takeIn id inclusion) :=
  forest.extendedBy_includePath id _ _ _ _

theorem extendedBy_foldl {α : Type} {change : Forest → α → Forest}
    (larger : ∀ (forest : Forest) (value : α), forest.ExtendedBy (change forest value))
    (values : List α) (forest : Forest) : forest.ExtendedBy (values.foldl change forest) := by
  induction values generalizing forest with
  | nil => exact .refl forest
  | cons value rest ih => exact (larger forest value).trans (ih _)

end Forest

/-! The book of cycles. -/

namespace CycleBook

def Sound (book : CycleBook) : Prop :=
  ∀ id cycle, book.cycles.find? id = some cycle → id ∈ book.requested

structure ExtendedBy (book later : CycleBook) : Prop where
  sound : later.Sound
  cycles : ∀ id cycle, book.cycles.find? id = some cycle → later.cycles.find? id = some cycle

variable {hierarchy : Hierarchy} {book later last : CycleBook}

theorem ExtendedBy.refl (sound : book.Sound) : book.ExtendedBy book := ⟨sound, fun _ _ => id⟩

theorem ExtendedBy.trans (first : book.ExtendedBy later) (second : later.ExtendedBy last) :
    book.ExtendedBy last :=
  ⟨second.sound, fun id cycle known => second.cycles id cycle (first.cycles id cycle known)⟩

theorem Request.extendedBy {id : CycleId} {steps : List PathStep}
    {outcome : CycleBook × Except UnknownType (Option CycleId)}
    (request : Request hierarchy book id steps outcome) (sound : book.Sound) :
    book.ExtendedBy outcome.1 := by
  have requested : ∀ other cycle, book.cycles.find? other = some cycle →
      other ∈ book.requested.insert id := fun other cycle known =>
    OrderedSet.mem_insert.mpr (Or.inr (sound other cycle known))
  cases request with
  | again asked => exact .refl sound
  | nothing fresh empty => exact ⟨requested, fun _ _ known => known⟩
  | unknown fresh starts unknown => exact ⟨requested, fun _ _ known => known⟩
  | first fresh starts known =>
    refine ⟨fun other cycle described => ?_, fun other cycle described => ?_⟩
    · rw [OrderedMap.find?_insert] at described
      split at described
      · next same => exact OrderedSet.mem_insert.mpr (Or.inl same)
      · exact requested other cycle described
    -- A description is only ever written for an identifier that was not requested before.
    · have differs : other ≠ id := by
        rintro rfl
        exact fresh (sound other cycle described)
      rw [OrderedMap.find?_insert, if_neg differs]
      exact described

theorem extendedBy_requestAll (sound : book.Sound) (requests : List CycleRequest) :
    book.ExtendedBy (book.requestAll hierarchy requests).1 := by
  induction requests generalizing book with
  | nil => exact .refl sound
  | cons request rest ih =>
    obtain ⟨id, steps⟩ := request
    have first := (@describe_request hierarchy book id steps).extendedBy sound
    rw [requestAll]
    generalize book.describe hierarchy id steps = outcome at first
    obtain ⟨next, error | found⟩ := outcome
    · exact first
    · have others := first.trans (ih first.sound)
      dsimp only at others ⊢
      generalize next.requestAll hierarchy rest = reached at others
      obtain ⟨last, error | ids⟩ := reached
      · exact others
      · exact others

end CycleBook

/-! Builders. -/

theorem Graph.ExtendedBy.refl (graph : Graph) : graph.ExtendedBy graph :=
  ⟨rfl, List.prefix_rfl, .refl PatternNode.ExtendedBy.refl _, .refl _, fun _ _ => id⟩

theorem Graph.ExtendedBy.trans {graph later last : Graph} (first : graph.ExtendedBy later)
    (second : later.ExtendedBy last) : graph.ExtendedBy last where
  prefixes := second.prefixes.trans first.prefixes
  spaces := first.spaces.trans second.spaces
  patterns := first.patterns.trans
    (fun early late => ⟨late.pattern.trans early.pattern,
      fun value settled => late.check value (early.check value settled)⟩) second.patterns
  forest := first.forest.trans second.forest
  cycles := fun id cycle known => second.cycles id cycle (first.cycles id cycle known)

namespace Builder
variable {builder : Builder} {given : List PlanEntry} {taken : List Inclusion}

theorem extendedBy_openSpace (builder : Builder) (entry : PlanEntry) :
    builder.graph.ExtendedBy (builder.openSpace entry).1.graph where
  prefixes := rfl
  spaces := List.prefix_append _ _
  patterns := keepsNumbers_register builder.registry entry.pattern entry.checkHint
  forest := .refl _
  cycles := fun _ _ known => known

/-- What an entry does to a builder, whether its cycles can be described or not. -/
theorem addEntry_extends (gathers : builder.Gathers given taken) (sound : builder.book.Sound)
    (hierarchy : Hierarchy) (entry : PlanEntry) :
    (builder.addEntry hierarchy entry).1.book.Sound ∧
      builder.graph.ExtendedBy (builder.addEntry hierarchy entry).1.graph := by
  have opened := builder.extendedBy_openSpace entry
  rw [openSpace_eq gathers.registry] at opened
  have asked := @CycleBook.extendedBy_requestAll hierarchy builder.book sound entry.cycleRequests
  have included (more : List Inclusion) := Forest.extendedBy_foldl (fun forest inclusion =>
    forest.extendedBy_takeIn (numberOf (given ++ [entry]) inclusion.pattern) inclusion)
    more builder.nursery.forest
  rw [gathers.orderly.addEntry_eq]
  generalize builder.book.requestAll hierarchy entry.cycleRequests = outcome at asked
  obtain ⟨book, error | ids⟩ := outcome
  · exact ⟨asked.sound, { opened with forest := included [], cycles := asked.cycles }⟩
  · exact ⟨asked.sound, { opened with forest := included _, cycles := asked.cycles }⟩

theorem addAll_extends (gathers : builder.Gathers given taken) (sound : builder.book.Sound)
    (hierarchy : Hierarchy) (entries : List PlanEntry) :
    (builder.addAll hierarchy entries).book.Sound ∧
      builder.graph.ExtendedBy (builder.addAll hierarchy entries).graph := by
  induction entries generalizing builder given taken with
  | nil => exact ⟨sound, .refl _⟩
  | cons entry rest ih =>
    obtain ⟨next, step⟩ := addEntry_extends gathers sound hierarchy entry
    obtain ⟨_, gathered⟩ := gathers.addEntry hierarchy entry
    obtain ⟨last, run⟩ := ih gathered next
    exact ⟨last, step.trans run⟩

theorem sound_addAll (prefixes : Prefixes) (hierarchy : Hierarchy) (entries : List PlanEntry) :
    ((start prefixes).addAll hierarchy entries).book.Sound := by
  have sound : (start prefixes).book.Sound := fun _ _ described => nomatch described
  exact (addAll_extends (gathers_start prefixes) sound hierarchy entries).1

/-- Adding an entry to whatever was built so far extends the graph, also where the entry fails. -/
theorem extendedBy_addEntry (prefixes : Prefixes) (hierarchy : Hierarchy) (given : List PlanEntry)
    (entry : PlanEntry) :
    ((start prefixes).addAll hierarchy given).graph.ExtendedBy
      (((start prefixes).addAll hierarchy given).addEntry hierarchy entry).1.graph := by
  obtain ⟨_, gathers⟩ := (gathers_start prefixes).addAll hierarchy given
  exact (addEntry_extends gathers (sound_addAll prefixes hierarchy given) hierarchy entry).2

theorem extendedBy_addAll (prefixes : Prefixes) (hierarchy : Hierarchy) (given more : List PlanEntry) :
    ((start prefixes).addAll hierarchy given).graph.ExtendedBy
      ((start prefixes).addAll hierarchy (given ++ more)).graph := by
  obtain ⟨_, gathers⟩ := (gathers_start prefixes).addAll hierarchy given
  have later := (addAll_extends gathers (sound_addAll prefixes hierarchy given) hierarchy more).2
  simpa only [addAll, List.foldl_append] using later

end Builder
end PlanGraph
