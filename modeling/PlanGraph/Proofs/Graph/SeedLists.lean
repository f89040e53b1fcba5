import PlanGraph.Proofs.Graph.Passes
import PlanGraph.Proofs.Graph.Trees

/-! Seed lists and their trees. The framing of a seed list can be read back seed by seed, so different lists
are framed by different bytes. As long as the digests of these bytes differ as well, a tree belongs to one
seed list, and until it is finished it has no other seeds. -/

set_option autoImplicit false
namespace PlanGraph

namespace Md5

@[simp] theorem length_littleEndian (count number : Nat) :
    (littleEndian count number).length = count := by
  simp [littleEndian]

theorem littleEndian_succ (count number : Nat) :
    littleEndian (count + 1) number = UInt8.ofNat number :: littleEndian count (number / 256) := by
  simp [littleEndian, List.range_succ_eq_map, Nat.div_div_eq_div_mul, Nat.pow_succ, Nat.mul_comm]

theorem littleEndian_inj {count first second : Nat} (fits : first < 256 ^ count)
    (alsoFits : second < 256 ^ count) :
    littleEndian count first = littleEndian count second ↔ first = second := by
  refine ⟨fun same => ?_, fun same => same ▸ rfl⟩
  induction count generalizing first second with
  | zero => omega
  | succ count ih =>
    rw [littleEndian_succ, littleEndian_succ, List.cons.injEq] at same
    rw [Nat.pow_succ] at fits alsoFits
    have low : first % 256 = second % 256 := by
      simpa using congrArg UInt8.toNat same.1
    have high : first / 256 = second / 256 :=
      ih (Nat.div_lt_of_lt_mul (by omega)) (Nat.div_lt_of_lt_mul (by omega)) same.2
    omega

end Md5

/-! Framing. -/

def ShortSeeds (seeds : List Iri) : Prop := ∀ seed ∈ seeds, seed.utf8ByteSize < 2 ^ 64

instance (seeds : List Iri) : Decidable (ShortSeeds seeds) :=
  inferInstanceAs (Decidable (∀ seed ∈ seeds, _))

/-- Every framed seed tells where it ends. -/
theorem framedSeed_append_inj {seed other : Iri} {rest otherRest : List UInt8}
    (short : seed.utf8ByteSize < 2 ^ 64) (otherShort : other.utf8ByteSize < 2 ^ 64)
    (same : framedSeed seed ++ rest = framedSeed other ++ otherRest) :
    seed = other ∧ rest = otherRest := by
  unfold framedSeed at same
  rw [List.append_assoc, List.append_assoc] at same
  obtain ⟨lengths, bodies⟩ := List.append_inj same (by simp [bigEndian64])
  have size : seed.utf8ByteSize = other.utf8ByteSize :=
    (Md5.littleEndian_inj short otherShort).mp (List.reverse_injective lengths)
  obtain ⟨bytes, rests⟩ := List.append_inj bodies size
  exact ⟨String.toByteArray_inj.mp (ByteArray.ext (Array.toList_inj.mp bytes)), rests⟩

theorem framedSeeds_cons_ne_nil (seed : Iri) (rest : List Iri) : framedSeeds (seed :: rest) ≠ [] := by
  have lengthBytes : 0 < (bigEndian64 seed.utf8ByteSize).length := by simp [bigEndian64]
  rw [framedSeeds, List.flatMap_cons, framedSeed, List.append_assoc]
  exact List.append_ne_nil_of_left_ne_nil (List.ne_nil_of_length_pos lengthBytes) _

theorem framedSeeds_inj {first second : List Iri} (short : ShortSeeds first)
    (alsoShort : ShortSeeds second) : framedSeeds first = framedSeeds second ↔ first = second := by
  refine ⟨fun same => ?_, fun same => same ▸ rfl⟩
  induction first generalizing second with
  | nil =>
    cases second with
    | nil => rfl
    | cons other others => exact absurd same.symm (framedSeeds_cons_ne_nil other others)
  | cons seed rest ih =>
    cases second with
    | nil => exact absurd same (framedSeeds_cons_ne_nil seed rest)
    | cons other others =>
      obtain ⟨seedShort, restShort⟩ := List.forall_mem_cons.mp short
      obtain ⟨otherShort, othersShort⟩ := List.forall_mem_cons.mp alsoShort
      obtain ⟨rfl, rests⟩ := framedSeed_append_inj seedShort otherShort same
      rw [ih restShort othersShort rests]

/-! Digests in hexadecimal digits. -/

theorem hexByte_inj {byte other : UInt8} : hexByte byte = hexByte other ↔ byte = other := by
  refine ⟨fun same => ?_, fun same => same ▸ rfl⟩
  have digits : ∀ value < 16, ∀ more < 16, hexDigit value = hexDigit more → value = more := by decide
  simp only [hexByte, List.cons.injEq, and_true] at same
  have bound := byte.toNat_lt
  have otherBound := other.toNat_lt
  have high := digits _ (by omega) _ (by omega) same.1
  have low := digits _ (by omega) _ (by omega) same.2
  exact UInt8.toNat_inj.mp (by omega)

theorem flatMap_hexByte_inj {bytes others : List UInt8} :
    bytes.flatMap hexByte = others.flatMap hexByte ↔ bytes = others := by
  refine ⟨fun same => ?_, fun same => same ▸ rfl⟩
  induction bytes generalizing others with
  | nil =>
    cases others with
    | nil => rfl
    | cons other rest => simp [hexByte] at same
  | cons byte rest ih =>
    cases others with
    | nil => simp [hexByte] at same
    | cons other others =>
      rw [List.flatMap_cons, List.flatMap_cons] at same
      obtain ⟨heads, tails⟩ := List.append_inj same rfl
      rw [hexByte_inj.mp heads, ih tails]

theorem fingerprint_eq_iff {seeds others : List Iri} : fingerprint seeds = fingerprint others ↔
    Md5.digest (framedSeeds seeds) = Md5.digest (framedSeeds others) :=
  String.ofList_inj.trans flatMap_hexByte_inj

/-! Trees and their seed lists. -/

/-- No two included paths have seed lists that are framed by different bytes of one digest. -/
def Plan.DigestsDiffer (plan : Plan) : Prop :=
  ∀ path ∈ plan.includedPaths, ∀ other ∈ plan.includedPaths,
    Md5.digest (framedSeeds path.seeds) = Md5.digest (framedSeeds other.seeds) →
      framedSeeds path.seeds = framedSeeds other.seeds

instance (plan : Plan) : Decidable plan.DigestsDiffer :=
  inferInstanceAs (Decidable (∀ path ∈ plan.includedPaths, ∀ other ∈ plan.includedPaths, _))

/-- Included paths share a tree exactly if they have the same seed list, which gives the tree its seeds. -/
structure Plan.SharesBySeeds (plan : Plan) (graph : Graph) : Prop where
  found : ∀ path ∈ plan.includedPaths, ∃ id tree, graph.treeWithSeeds? path.seeds = some id ∧
    graph.forest.trees[id]? = some tree ∧ tree.seeds = .ofList path.seeds
  shared : ∀ path ∈ plan.includedPaths, ∀ other ∈ plan.includedPaths,
    graph.treeWithSeeds? path.seeds = graph.treeWithSeeds? other.seeds ↔ path.seeds = other.seeds
  sourced : ∀ tree ∈ graph.forest.trees, ∃ path ∈ plan.includedPaths,
    tree.fingerprint = fingerprint path.seeds ∧ tree.seeds = .ofList path.seeds

def Graph.Propagates (graph later : Graph) : Prop :=
  ∃ hierarchy roots, graph.propagate hierarchy roots = .ok later

def Forest.seedings (forest : Forest) : List (Fingerprint × OrderedSet Iri) :=
  forest.trees.map fun tree => (tree.fingerprint, tree.seeds)

theorem Forest.fingerprints_eq_seedings (forest : Forest) :
    forest.fingerprints = forest.seedings.map Prod.fst := by
  simp [fingerprints, seedings, Function.comp_def]

theorem Forest.exists_same_seeds {forest other : Forest} (same : forest.seedings = other.seedings)
    {tree : SearchTree} (member : tree ∈ forest.trees) :
    ∃ old ∈ other.trees, old.fingerprint = tree.fingerprint ∧ old.seeds = tree.seeds := by
  have listed : (tree.fingerprint, tree.seeds) ∈ forest.seedings := List.mem_map.mpr ⟨tree, member, rfl⟩
  rw [same] at listed
  obtain ⟨old, inside, pair⟩ := List.mem_map.mp listed
  exact ⟨old, inside, Prod.mk.inj pair⟩

theorem Plan.DigestsDiffer.seeds_eq {plan : Plan} (differ : plan.DigestsDiffer)
    (short : ∀ path ∈ plan.includedPaths, ShortSeeds path.seeds) {path other : PlannedPath}
    (included : path ∈ plan.includedPaths) (also : other ∈ plan.includedPaths)
    (same : fingerprint path.seeds = fingerprint other.seeds) : path.seeds = other.seeds :=
  (framedSeeds_inj (short path included) (short other also)).mp
    (differ path included other also (fingerprint_eq_iff.mp same))

section
variable {plan : Plan} {hierarchy : Hierarchy} {initial graph : Graph} {tree : SearchTree}

theorem Plan.Initial.tree_carries_iff (represents : plan.Initial hierarchy initial)
    (member : tree ∈ initial.forest.trees) (mark : TreeMark PatternId) {said : PlannedPath → Prop}
    (leaves : ∀ inclusion : Inclusion,
      inclusion.LeavesOnTree (numberOf plan.entries inclusion.pattern) mark ↔ said inclusion.path) :
    tree.content.Carries some mark ↔
      ∃ path ∈ plan.includedPaths, fingerprint path.seeds = tree.fingerprint ∧ said path := by
  rw [represents.madeOf.tree_carries_iff member mark, ← paths_inclusions plan initial.cycles]
  simp only [leaves, List.mem_map, exists_exists_and_eq_and]
  rfl

theorem Plan.Initial.seeds_eq (represents : plan.Initial hierarchy initial)
    (apart : ∀ path ∈ plan.includedPaths, ∀ other ∈ plan.includedPaths,
      fingerprint path.seeds = fingerprint other.seeds → path.seeds = other.seeds)
    (member : tree ∈ initial.forest.trees) {path : PlannedPath} (included : path ∈ plan.includedPaths)
    (named : fingerprint path.seeds = tree.fingerprint) : tree.seeds = .ofList path.seeds := by
  refine OrderedSet.ext fun seed => ?_
  have gathered : seed ∈ tree.seeds ↔ ∃ other ∈ plan.includedPaths,
      fingerprint other.seeds = tree.fingerprint ∧ seed ∈ other.seeds :=
    represents.tree_carries_iff member (.seed seed) fun _ => Iff.rfl
  rw [gathered, OrderedSet.mem_ofList]
  constructor
  · rintro ⟨other, also, again, listed⟩
    rw [apart path included other also (named.trans again.symm)]
    exact listed
  · exact fun listed => ⟨path, included, named, listed⟩

theorem Plan.Initial.exists_path (represents : plan.Initial hierarchy initial)
    (member : tree ∈ initial.forest.trees) :
    ∃ path ∈ plan.includedPaths, fingerprint path.seeds = tree.fingerprint := by
  have present : tree.content.Carries some .present ↔ ∃ path ∈ plan.includedPaths,
      fingerprint path.seeds = tree.fingerprint ∧ True :=
    represents.tree_carries_iff member .present fun _ => Iff.rfl
  obtain ⟨path, included, named, _⟩ := present.mp trivial
  exact ⟨path, included, named⟩

/-- Paths share the trees of the initial graph by their seed lists, and still do as long as fingerprints and
seeds stay. -/
theorem Plan.Initial.sharesBySeeds (represents : plan.Initial hierarchy initial)
    (apart : ∀ path ∈ plan.includedPaths, ∀ other ∈ plan.includedPaths,
      fingerprint path.seeds = fingerprint other.seeds → path.seeds = other.seeds)
    (links : graph.forest.Linked) (same : graph.forest.seedings = initial.forest.seedings) :
    plan.SharesBySeeds graph := by
  have fingerprints : graph.forest.fingerprints = initial.forest.fingerprints := by
    rw [Forest.fingerprints_eq_seedings, same, ← Forest.fingerprints_eq_seedings]
  constructor
  · intro path included
    obtain ⟨id, tree, found, there, named⟩ := represents.planted links fingerprints included
    obtain ⟨old, inside, oldNamed, seeds⟩ := Forest.exists_same_seeds same (List.mem_of_getElem? there)
    have gathered := represents.seeds_eq apart inside included (named.symm.trans oldNamed.symm)
    exact ⟨id, tree, found, there, seeds.symm.trans gathered⟩
  · intro path included other also
    -- Both paths find one tree, which has the fingerprint of either seed list.
    refine ⟨fun shared => apart path included other also ?_, fun equal => by rw [equal]⟩
    obtain ⟨id, tree, found, there, named⟩ := represents.planted links fingerprints included
    obtain ⟨otherId, otherTree, otherFound, otherThere, otherNamed⟩ :=
      represents.planted links fingerprints also
    rw [found, otherFound, Option.some.injEq] at shared
    rw [shared, otherThere, Option.some.injEq] at there
    rw [← named, ← otherNamed, there]
  · intro tree member
    obtain ⟨old, inside, oldNamed, seeds⟩ := Forest.exists_same_seeds same member
    obtain ⟨path, included, named⟩ := represents.exists_path inside
    have gathered := represents.seeds_eq apart inside included named
    exact ⟨path, included, oldNamed.symm.trans named.symm, seeds.symm.trans gathered⟩

namespace Graph

theorem Propagates.keeps {later : Graph} (propagates : graph.Propagates later)
    (described : graph.CyclesDescribed) : later.CyclesDescribed ∧
      graph.forest.SameLinks later.forest ∧ later.forest.seedings = graph.forest.seedings := by
  obtain ⟨hierarchy, roots, propagated⟩ := propagates
  obtain ⟨_, _, rfl⟩ := (propagate_eq_ok_iff described).mp propagated
  refine ⟨cyclesDescribed_spread graph hierarchy roots, sameLinks_spread graph, ?_⟩
  simp [Forest.seedings, spread, spreadTree, Function.comp_def]

theorem propagations_keep (run : Relation.ReflTransGen Propagates initial graph)
    (links : initial.forest.Linked) (described : initial.CyclesDescribed) :
    graph.CyclesDescribed ∧ graph.forest.Linked ∧ graph.forest.seedings = initial.forest.seedings := by
  induction run with
  | refl => exact ⟨described, links, rfl⟩
  | tail _ propagates ih =>
    obtain ⟨described, links, seedings⟩ := ih
    obtain ⟨still, same, again⟩ := propagates.keeps described
    exact ⟨still, same.linked links, again.trans seedings⟩

end Graph

/-- Seed lists are told apart by the bytes of their framing. If these have different digests, paths share a
tree exactly if they have the same seed list, and the tree has the seeds of that list, before propagation
and after any number of propagations. -/
theorem seed_lists_decide (first second : List Iri) (plan : Plan) :
    (ShortSeeds first → ShortSeeds second →
      (framedSeeds first = framedSeeds second ↔ first = second)) ∧
    ((∀ path ∈ plan.includedPaths, ShortSeeds path.seeds) → plan.DigestsDiffer →
      ∀ hierarchy initial graph, plan.initialGraph hierarchy = .ok initial →
        Relation.ReflTransGen Graph.Propagates initial graph →
        plan.SharesBySeeds initial ∧ plan.SharesBySeeds graph) := by
  refine ⟨framedSeeds_inj, fun short differ hierarchy initial graph built run => ?_⟩
  have represents := (Plan.Initial.of_ok built).2
  have apart (path : PlannedPath) (included : path ∈ plan.includedPaths) (other : PlannedPath)
      (also : other ∈ plan.includedPaths) := differ.seeds_eq short included also
  obtain ⟨_, links, seedings⟩ :=
    Graph.propagations_keep run represents.links represents.cyclesDescribed
  exact ⟨represents.sharesBySeeds apart represents.links rfl,
    represents.sharesBySeeds apart links seedings⟩

end

/-- A plan with seed lists that are spelled by the same letters, and one without seeds. -/
def shelfPlan : Plan where
  prefixes := ∅
  entries :=
    [{ context := "query"
       pattern := ⟨.variable "x", .iri "title", .variable "t"⟩
       check := none
       cycles := []
       paths :=
        [⟨[⟨"title", "Title"⟩], ["ab", "c"], none⟩, ⟨[⟨"title", "Title"⟩], ["a", "bc"], none⟩,
          ⟨[⟨"holds", "Book"⟩, ⟨"title", "Title"⟩], ["ab", "c"], none⟩,
          ⟨[⟨"title", "Title"⟩], [], none⟩] }]

theorem seed_lists_decide_shelf : ShortSeeds ["ab", "c"] ∧ ShortSeeds ["a", "bc"] ∧
    framedSeeds ["ab", "c"] ≠ framedSeeds ["a", "bc"] ∧ shelfPlan.DigestsDiffer ∧
    ∃ initial graph, shelfPlan.initialGraph .empty = .ok initial ∧ initial.Propagates graph ∧
      shelfPlan.SharesBySeeds initial ∧ shelfPlan.SharesBySeeds graph := by
  have short : ShortSeeds ["ab", "c"] := by decide
  have alsoShort : ShortSeeds ["a", "bc"] := by decide
  have planned : ∀ path ∈ shelfPlan.includedPaths, ShortSeeds path.seeds := by decide
  have differ : shelfPlan.DigestsDiffer := by decide +kernel
  have succeeds : (shelfPlan.initialGraph .empty >>= fun initial =>
      initial.propagate .empty ⟨.ofList ["x"], ∅⟩).isOk = true := by decide +kernel
  obtain ⟨graph, whole⟩ := exists_ok succeeds
  obtain ⟨initial, built, propagated⟩ := bind_eq_ok.mp whole
  have propagates : initial.Propagates graph := ⟨_, _, propagated⟩
  obtain ⟨framed, shares⟩ := seed_lists_decide ["ab", "c"] ["a", "bc"] shelfPlan
  have apart : framedSeeds ["ab", "c"] ≠ framedSeeds ["a", "bc"] := fun same =>
    absurd ((framed short alsoShort).mp same) (by decide)
  exact ⟨short, alsoShort, apart, differ, initial, graph, built, propagates,
    shares planned differ .empty initial graph built (.single propagates)⟩

end PlanGraph
