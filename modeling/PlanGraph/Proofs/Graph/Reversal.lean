import PlanGraph.Proofs.Graph.Reordering

/-! Cycles and their reverses. Both are asked for under identifiers that share one name space, so each is
described with its own steps exactly if no earlier request took its identifier for other steps. -/

set_option autoImplicit false
namespace PlanGraph

/-- The identifier is described with the steps, and with all subtypes of the type of the first one. -/
def Graph.Describes (graph : Graph) (hierarchy : Hierarchy) (id : CycleId) (steps : List PathStep) :
    Prop :=
  ∃ first types, steps.head? = some first ∧ hierarchy.subtypes first.type = .ok types ∧
    graph.cycles.find? id = some ⟨types, steps⟩

def Graph.LinksTo (graph : Graph) (entry : PlanEntry) (id : CycleId) : Prop :=
  ∀ path type, (path, type) ∈ entry.includedPaths → ∃ number tree,
    graph.treeWithSeeds? path.seeds = some number ∧ graph.forest.trees[number]? = some tree ∧
      id ∈ tree.cycles

/-- Among the requests for planned cycles and their reverses, the first one for the identifier is for
these steps. -/
def Plan.FirstAsks (plan : Plan) (id : CycleId) (steps : List PathStep) : Prop :=
  ∃ before after, cycleRequests plan.entries = before ++ (id, steps) :: after ∧
    ∀ request ∈ before, id ≠ request.1

theorem PlannedCycle.mem_requests {cycle : PlannedCycle} {id : CycleId} {steps : List PathStep} :
    (id, steps) ∈ cycle.requests ↔ id = cycle.id ∧ steps = cycle.steps ∨
      1 < cycle.steps.length ∧ id = reversedId cycle.id ∧ steps = cycle.steps.reverse := by
  unfold requests
  by_cases short : cycle.steps.length ≤ 1
  · have single : ¬1 < cycle.steps.length := by omega
    simp [short, single]
  · have several : 1 < cycle.steps.length := by omega
    simp [short, several]

theorem mem_cycleRequests {plan : Plan} {entry : PlanEntry} (member : entry ∈ plan.entries)
    (included : entry.includedPaths ≠ []) {cycle : PlannedCycle} (listed : cycle ∈ entry.cycles)
    {request : CycleRequest} (asked : request ∈ cycle.requests) :
    request ∈ entry.cycleRequests ∧ request ∈ cycleRequests plan.entries := by
  have here : request ∈ entry.cycleRequests := by
    rw [PlanEntry.cycleRequests, if_neg included]
    exact List.mem_flatMap.mpr ⟨cycle, listed, asked⟩
  exact ⟨here, List.mem_flatMap.mpr ⟨entry, member, here⟩⟩

section
variable {plan : Plan} {hierarchy : Hierarchy} {graph : Graph} {id : CycleId} {steps : List PathStep}

theorem Plan.firstAsks_iff :
    plan.FirstAsks id steps ↔ (cycleRequests plan.entries).lookup id = some steps := by
  rw [List.lookup_eq_some_iff]
  simp [FirstAsks]

theorem Plan.Initial.describes_iff (represents : plan.Initial hierarchy graph)
    (met : hierarchy.CanMeet (cycleRequests plan.entries)) (nonempty : steps ≠ []) :
    graph.Describes hierarchy id steps ↔ plan.FirstAsks id steps := by
  rw [Plan.firstAsks_iff]
  constructor
  · rintro ⟨first, types, _, _, found⟩
    rw [represents.cycles] at found
    obtain ⟨others, asked, described⟩ := Option.bind_eq_some_iff.mp found
    obtain ⟨_, _, _, _, same⟩ := Hierarchy.cycle?_eq_some.mp described
    rw [asked, (Cycle.mk.inj same).2]
  · intro asked
    obtain ⟨first, rest, rfl⟩ := List.exists_cons_of_ne_nil nonempty
    have known : hierarchy.contains first.type = true := met id _ asked
    refine ⟨first, hierarchy.below first.type, rfl, if_pos known, ?_⟩
    rw [represents.cycles, asked]
    exact Hierarchy.cycle?_eq_some.mpr ⟨first, rest, rfl, known, rfl⟩

theorem Plan.Initial.linksTo (represents : plan.Initial hierarchy graph) {entry : PlanEntry}
    (member : entry ∈ plan.entries) (asked : (id, steps) ∈ entry.cycleRequests)
    (described : graph.cycles.contains id = true) : graph.LinksTo entry id := by
  intro path type included
  have through : id ∈ entry.describedCycles graph.cycles :=
    OrderedSet.mem_ofList.mpr (List.mem_filter.mpr ⟨List.mem_map.mpr ⟨_, asked, rfl⟩, described⟩)
  have listed := mem_inclusions_of_included member included graph.cycles
  obtain ⟨number, tree, found, named, linked⟩ :=
    (represents.madeOf.bears (.tree (fingerprint path.seeds) (.cycle id))).mpr
      ⟨_, listed, rfl, through⟩
  exact ⟨number, tree, represents.links.treeWith?_eq_some.mpr
    (Forest.fingerprint_at.mpr ⟨tree, found, named⟩), found, linked⟩

theorem Graph.Describes.contains (describes : graph.Describes hierarchy id steps) :
    graph.cycles.contains id = true := by
  obtain ⟨_, types, _, _, found⟩ := describes
  exact OrderedMap.contains_iff.mpr ⟨_, found⟩

end

/-- Cycles of entries with included paths are described as they are listed, and the longer ones reversed
as well, unless another request comes first. -/
theorem initialGraph_describes_both {plan : Plan} {hierarchy : Hierarchy} {graph : Graph}
    (built : plan.initialGraph hierarchy = .ok graph) {entry : PlanEntry}
    (member : entry ∈ plan.entries) (included : entry.includedPaths ≠ []) {cycle : PlannedCycle}
    (listed : cycle ∈ entry.cycles) (nonempty : cycle.steps ≠ []) :
    (ConsistentCycles (cycleRequests plan.entries) →
      (graph.Describes hierarchy cycle.id cycle.steps ∧ graph.LinksTo entry cycle.id) ∧
      (1 < cycle.steps.length →
        graph.Describes hierarchy (reversedId cycle.id) cycle.steps.reverse ∧
          graph.LinksTo entry (reversedId cycle.id))) ∧
    ∀ request ∈ cycle.requests,
      (graph.Describes hierarchy request.1 request.2 ↔ plan.FirstAsks request.1 request.2) ∧
        (graph.cycles.contains request.1 = true → graph.LinksTo entry request.1) := by
  obtain ⟨met, represents⟩ := Plan.Initial.of_ok built
  have outcome (request : CycleRequest) (asked : request ∈ cycle.requests) :
      (graph.Describes hierarchy request.1 request.2 ↔ plan.FirstAsks request.1 request.2) ∧
        (graph.cycles.contains request.1 = true → graph.LinksTo entry request.1) := by
    obtain ⟨id, steps⟩ := request
    obtain ⟨here, _⟩ := mem_cycleRequests member included listed asked
    have steps_nonempty : steps ≠ [] := by
      rcases PlannedCycle.mem_requests.mp asked with ⟨_, rfl⟩ | ⟨_, _, rfl⟩
      · exact nonempty
      · simpa using nonempty
    exact ⟨represents.describes_iff met steps_nonempty, represents.linksTo member here⟩
  refine ⟨fun consistent => ?_, outcome⟩
  have settled (request : CycleRequest) (asked : request ∈ cycle.requests) :
      graph.Describes hierarchy request.1 request.2 ∧ graph.LinksTo entry request.1 := by
    obtain ⟨described, linked⟩ := outcome request asked
    have first := consistent.lookup_eq_some.mpr (mem_cycleRequests member included listed asked).2
    have describes := described.mpr (Plan.firstAsks_iff.mpr first)
    exact ⟨describes, linked describes.contains⟩
  constructor
  · exact settled _ (PlannedCycle.mem_requests.mpr (Or.inl ⟨rfl, rfl⟩))
  · intro several
    exact settled _ (PlannedCycle.mem_requests.mpr (Or.inr ⟨several, rfl, rfl⟩))

/-- A plan with two cycles, of which the second has the identifier of the reverse of the first. -/
def circlePlan (steps : List PathStep) : Plan :=
  let first : PlannedCycle := ⟨"2", [⟨"knows", "Person"⟩, ⟨"wrote", "Author"⟩]⟩
  ⟨∅, [{ memberEntry with cycles := [first, ⟨reversedId "2", steps⟩] }]⟩

theorem initialGraph_describes_both_circle :
    ∃ graph, (circlePlan [⟨"wrote", "Author"⟩, ⟨"knows", "Person"⟩]).initialGraph groupTypes = .ok graph ∧
      graph.Describes groupTypes "2" [⟨"knows", "Person"⟩, ⟨"wrote", "Author"⟩] ∧
      graph.Describes groupTypes "2r" [⟨"wrote", "Author"⟩, ⟨"knows", "Person"⟩] := by
  have succeeds : ((circlePlan [⟨"wrote", "Author"⟩, ⟨"knows", "Person"⟩]).initialGraph groupTypes).isOk =
      true := by decide +kernel
  obtain ⟨graph, built⟩ := exists_ok succeeds
  have consistent : ConsistentCycles
      (cycleRequests (circlePlan [⟨"wrote", "Author"⟩, ⟨"knows", "Person"⟩]).entries) := by
    unfold ConsistentCycles
    decide +kernel
  have both := (initialGraph_describes_both built List.mem_cons_self (by decide +kernel)
    List.mem_cons_self (by simp)).1 consistent
  exact ⟨graph, built, both.1.1, (both.2 (by simp)).1⟩

/-- Where the second cycle has other steps than the reverse, it is described with those of the reverse,
although no identifier is planned with different steps. -/
theorem circle_not_described :
    (∀ first ∈ (circlePlan [⟨"wrote", "Person"⟩]).entries.flatMap PlanEntry.cycles,
      ∀ second ∈ (circlePlan [⟨"wrote", "Person"⟩]).entries.flatMap PlanEntry.cycles,
        first.id = second.id → first.steps = second.steps) ∧
    ∃ graph, (circlePlan [⟨"wrote", "Person"⟩]).initialGraph groupTypes = .ok graph ∧
      ∃ entry ∈ (circlePlan [⟨"wrote", "Person"⟩]).entries, entry.includedPaths ≠ [] ∧
        ∃ cycle ∈ entry.cycles, cycle.steps ≠ [] ∧
          ¬graph.Describes groupTypes cycle.id cycle.steps := by
  have succeeds : ((circlePlan [⟨"wrote", "Person"⟩]).initialGraph groupTypes).isOk = true := by
    decide +kernel
  obtain ⟨graph, built⟩ := exists_ok succeeds
  obtain ⟨met, represents⟩ := Plan.Initial.of_ok built
  refine ⟨by decide +kernel, graph, built, _, List.mem_cons_self, by decide +kernel,
    ⟨"2r", [⟨"wrote", "Person"⟩]⟩, by decide +kernel, by simp, fun describes => ?_⟩
  rw [represents.describes_iff met (by simp), Plan.firstAsks_iff] at describes
  revert describes
  decide +kernel

/-- A cycle without steps takes the identifier of the reverse as well, and then nothing is described there. -/
example :
    let circle : PlannedCycle := ⟨"2", [⟨"knows", "Person"⟩, ⟨"wrote", "Author"⟩]⟩
    let plan : Plan := ⟨∅, [{ memberEntry with cycles := [⟨reversedId "2", []⟩, circle] }]⟩
    (plan.initialGraph groupTypes).map (fun graph => graph.cycles.entries.map Prod.fst) = .ok ["2"] := by
  decide +kernel

end PlanGraph
