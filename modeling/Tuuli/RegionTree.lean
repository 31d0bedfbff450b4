import Mathlib.Order.Interval.Finset.Nat
import Tuuli.Eligibility
import Tuuli.TreeSplits

/-!
The tree behind a specification. `PbsCollect` numbers atoms and joins from
left to right and bottom up; the tree over these numbers has one inner node
for each edge of the specification, with the edge's sides as its leaves.
-/
namespace JoinRegion
open TreeSplits

variable {V : Type}

namespace CExpression

def atomList : CExpression V → List CAtom
  | atom a => [a]
  | join _ l r _ _ => l.atomList ++ r.atomList

def joinCount : CExpression V → ℕ
  | atom _ => 0
  | join _ l r _ _ => l.joinCount + r.joinCount + 1

def pureInner : CExpression V → Bool
  | atom _ => true
  | join op l r _ _ => l.pureInner && r.pureInner && op = .innerJoin

def cdcSupported : CExpression V → Bool
  | atom _ => true
  | join op l r _ _ => l.cdcSupported && r.cdcSupported && fCDCSupportedJoin op

/-- The numbers of the atoms when the first of them is `first`. -/
def nodeSet (expr : CExpression V) (first : ℕ) : CBitSet :=
  Finset.Ico first (first + expr.atomList.length)

/-- Atoms are numbered from `first` on, joins from `edge` on. -/
def regionTree : CExpression V → ℕ → ℕ → SplitTree ℕ ℕ
  | atom _, first, _ => .leaf first
  | join _ l r _ _, first, edge =>
    .node (edge + l.joinCount + r.joinCount) (l.regionTree first edge)
      (r.regionTree (first + l.atomList.length) (edge + l.joinCount))

def rawEdges : CExpression V → ℕ → List (CEdge V)
  | atom _, _ => []
  | join op l r predicate notinComparison, first =>
    l.rawEdges first ++ r.rawEdges (first + l.atomList.length) ++
      [⟨op, l.nodeSet first, r.nodeSet (first + l.atomList.length), predicate,
        if op = .leftAntiSemiJoinNotIn then notinComparison else none, ∅, ∅, []⟩]

variable {expr : CExpression V} {first edge k : ℕ} {l r : SplitTree ℕ ℕ}

theorem atomList_length (expr : CExpression V) : expr.atomList.length = expr.joinCount + 1 := by
  induction expr with
  | atom a => rfl
  | join op l r predicate notinComparison ihl ihr =>
    simp only [atomList, List.length_append, joinCount]
    omega

theorem atomList_pos (expr : CExpression V) : 0 < expr.atomList.length := by
  rw [expr.atomList_length]
  exact Nat.succ_pos _

theorem nodeSet_join (op : EOperatorId) (l r : CExpression V) (predicate : CPredicate V)
    (notinComparison : Option (CPredicate V)) (first : ℕ) :
    (join op l r predicate notinComparison).nodeSet first
      = l.nodeSet first ∪ r.nodeSet (first + l.atomList.length) := by
  simp only [nodeSet, atomList, List.length_append]
  rw [Finset.Ico_union_Ico_eq_Ico (by omega) (by omega), Nat.add_assoc]

theorem regionTree_leaves (expr : CExpression V) (first edge : ℕ) :
    (expr.regionTree first edge).leaves = expr.nodeSet first := by
  induction expr generalizing first edge with
  | atom a => simp [regionTree, SplitTree.leaves, nodeSet, atomList]
  | join op l r predicate notinComparison ihl ihr =>
    simp only [regionTree, SplitTree.leaves, ihl, ihr, nodeSet_join]

theorem regionTree_distinct (expr : CExpression V) (first edge : ℕ) :
    (expr.regionTree first edge).Distinct := by
  induction expr generalizing first edge with
  | atom a => exact trivial
  | join op l r predicate notinComparison ihl ihr =>
    refine ⟨ihl _ _, ihr _ _, ?_⟩
    rw [regionTree_leaves, regionTree_leaves]
    exact Finset.Ico_disjoint_Ico_consecutive _ _ _

theorem regionTree_keys (expr : CExpression V) (first edge : ℕ) :
    (expr.regionTree first edge).keys = List.range' edge expr.joinCount := by
  induction expr generalizing first edge with
  | atom a => rfl
  | join op l r predicate notinComparison ihl ihr =>
    simp only [regionTree, SplitTree.keys, ihl, ihr, joinCount]
    rw [List.range'_append_1, Nat.add_assoc edge, List.range'_concat, Nat.one_mul]

theorem rawEdges_length (expr : CExpression V) (first : ℕ) :
    (expr.rawEdges first).length = expr.joinCount := by
  induction expr generalizing first with
  | atom a => rfl
  | join op l r predicate notinComparison ihl ihr =>
    simp only [rawEdges, List.length_append, ihl, ihr, joinCount, List.length_singleton]

theorem cdcSupported_of_pureInner (inner : expr.pureInner = true) : expr.cdcSupported = true := by
  induction expr with
  | atom a => rfl
  | join op l r predicate notinComparison ihl ihr =>
    simp only [pureInner, Bool.and_eq_true, decide_eq_true_eq] at inner
    obtain ⟨⟨left, right⟩, rfl⟩ := inner
    rw [cdcSupported, ihl left, ihr right]
    rfl

theorem rawEdges_inner (inner : expr.pureInner = true) {edge : CEdge V}
    (member : edge ∈ expr.rawEdges first) : edge.joinType = .innerJoin := by
  induction expr generalizing first with
  | atom a => exact absurd member List.not_mem_nil
  | join op l r predicate notinComparison ihl ihr =>
    simp only [pureInner, Bool.and_eq_true, decide_eq_true_eq] at inner
    obtain ⟨⟨left, right⟩, rfl⟩ := inner
    simp only [rawEdges, List.mem_append, List.mem_singleton] at member
    rcases member with (below | below) | rfl
    · exact ihl left below
    · exact ihr right below
    · rfl

variable (h : SplitTree.HasNode k l r (expr.regionTree first edge))

include h

theorem regionTree_keys_lt : ∀ c, c ∈ l.keys ∨ c ∈ r.keys → c < k := by
  induction expr generalizing first edge with
  | atom a => exact absurd h id
  | join op a b predicate notinComparison iha ihb =>
    rcases h with ⟨rfl, rfl, rfl⟩ | left | right
    · intro c member
      rw [regionTree_keys, regionTree_keys, List.mem_range'_1, List.mem_range'_1] at member
      omega
    · exact iha left
    · exact ihb right

/-- The edge with the number of a node has the leaves below the node as its sides. -/
theorem rawEdges_of_node :
    edge ≤ k ∧ ∃ raw, (expr.rawEdges first)[k - edge]? = some raw ∧
      raw.left = l.leaves ∧ raw.right = r.leaves := by
  induction expr generalizing first edge with
  | atom a => exact absurd h id
  | join op a b predicate notinComparison iha ihb =>
    have lengthA := rawEdges_length a first
    have lengthB := rawEdges_length b (first + a.atomList.length)
    simp only [rawEdges]
    rcases h with ⟨rfl, rfl, rfl⟩ | left | right
    · have last : edge + a.joinCount + b.joinCount - edge
          = (a.rawEdges first ++ b.rawEdges (first + a.atomList.length)).length := by
        simp only [List.length_append]
        omega
      rw [last, List.getElem?_concat_length]
      exact ⟨by omega, _, rfl, (regionTree_leaves ..).symm, (regionTree_leaves ..).symm⟩
    · obtain ⟨bound, raw, found, sides⟩ := iha left
      have inside : k - edge < (a.rawEdges first).length := (List.getElem?_eq_some_iff.mp found).1
      refine ⟨bound, raw, ?_, sides⟩
      rw [List.append_assoc, List.getElem?_append_left inside]
      exact found
    · obtain ⟨bound, raw, found, sides⟩ := ihb right
      have inside := (List.getElem?_eq_some_iff.mp found).1
      refine ⟨by omega, raw, ?_, sides⟩
      rw [List.append_assoc, List.getElem?_append_right (by omega),
        List.getElem?_append_left (by omega), lengthA, ← found]
      congr 1
      omega

end CExpression

variable {nullRejecting : CPredicate V → CColRefSet → Bool} {root : CExpression V}
  {spec : CJoinRegionSpec V}

theorem pbsCollect_eq (expr : CExpression V) (spec : CJoinRegionSpec V) :
    pbsCollect expr spec = (expr.nodeSet spec.atoms.length, { spec with
      atoms := spec.atoms ++ expr.atomList
      edges := spec.edges ++ expr.rawEdges spec.atoms.length
      pureInner := spec.pureInner && expr.pureInner
      cdcSupported := spec.cdcSupported && expr.cdcSupported }) := by
  induction expr generalizing spec with
  | atom a =>
    simp [pbsCollect, CExpression.nodeSet, CExpression.atomList, CExpression.rawEdges,
      CExpression.pureInner, CExpression.cdcSupported]
  | join op l r predicate notinComparison ihl ihr =>
    simp only [pbsCollect, ihl, ihr, List.length_append, CExpression.nodeSet_join,
      CExpression.atomList, CExpression.rawEdges, CExpression.pureInner,
      CExpression.cdcSupported, List.append_assoc, Bool.and_assoc]

theorem buildEdges_concat (nullRejecting : CPredicate V → CColRefSet → Bool) (atoms : List CAtom)
    (edges : List (CEdge V)) (edge : CEdge V) :
    buildEdges nullRejecting atoms (edges ++ [edge]) = buildEdges nullRejecting atoms edges ++
      [buildEligibility nullRejecting atoms (buildEdges nullRejecting atoms edges) edge] := by
  simp only [buildEdges, List.foldl_append, List.foldl_cons, List.foldl_nil]

theorem buildEdges_length (nullRejecting : CPredicate V → CColRefSet → Bool) (atoms : List CAtom)
    (edges : List (CEdge V)) : (buildEdges nullRejecting atoms edges).length = edges.length := by
  induction edges using List.reverseRecOn with
  | nil => rfl
  | append_singleton edges edge ih => simp [buildEdges_concat, ih]

theorem buildEdges_getElem (nullRejecting : CPredicate V → CColRefSet → Bool) (atoms : List CAtom)
    {edges : List (CEdge V)} {k : ℕ} {raw : CEdge V} (found : edges[k]? = some raw) :
    (buildEdges nullRejecting atoms edges)[k]? = some (buildEligibility nullRejecting atoms
      ((buildEdges nullRejecting atoms edges).take k) raw) := by
  induction edges using List.reverseRecOn with
  | nil => simp at found
  | append_singleton edges edge ih =>
    have size := buildEdges_length nullRejecting atoms edges
    rw [buildEdges_concat]
    by_cases inside : k < edges.length
    · rw [List.getElem?_append_left inside] at found
      rw [List.getElem?_append_left (by omega), List.take_append_of_le_length (by omega)]
      exact ih found
    · have last : k = edges.length := by
        have bound := (List.getElem?_eq_some_iff.mp found).1
        simp at bound
        omega
      rw [last, List.getElem?_concat_length, Option.some.injEq] at found
      rw [last, ← size, List.getElem?_concat_length, List.take_left, found]

theorem build_flags (built : build nullRejecting root = some spec) :
    spec.pureInner = root.pureInner ∧ spec.cdcSupported = root.cdcSupported := by
  cases root with
  | atom a => simp [build] at built
  | join op l r predicate notinComparison =>
    simp only [build, pbsCollect_eq] at built
    split at built
    · rw [Option.some.injEq] at built
      rw [← built]
      split
      · exact ⟨rfl, rfl⟩
      · exact ⟨rfl, rfl⟩
    · exact absurd built.symm (Option.some_ne_none spec)

theorem build_spec (built : build nullRejecting root = some spec)
    (supported : spec.cdcSupported = true) :
    spec.atoms = root.atomList ∧
      spec.edges = buildEdges nullRejecting root.atomList (root.rawEdges 0) ∧
      root.cdcSupported = true ∧ root.joinCount ≠ 0 := by
  cases root with
  | atom a => simp [build] at built
  | join op l r predicate notinComparison =>
    simp only [build, pbsCollect_eq] at built
    split at built
    · simp only [Option.some.injEq] at built
      rw [← built] at supported ⊢
      split at supported
      · rename_i cdc
        simp only [cdc, if_true]
        refine ⟨?_, ?_, ?_, Nat.succ_ne_zero _⟩
        · simp [CJoinRegionSpec.buildDependencies, CJoinRegionSpec.empty]
        · simp [CJoinRegionSpec.buildDependencies, CJoinRegionSpec.empty]
        · simpa [CJoinRegionSpec.buildDependencies, CJoinRegionSpec.empty] using cdc
      · contradiction
    · simp at built

/-- A specification that passed the conflict detector's operator check. -/
structure EnumeratedRegion (V : Type) where
  nullRejecting : CPredicate V → CColRefSet → Bool
  root : CExpression V
  spec : CJoinRegionSpec V
  built : build nullRejecting root = some spec
  supported : spec.cdcSupported = true

structure MixedRegion (V : Type) extends EnumeratedRegion V where
  mixed : spec.pureInner = false

namespace MixedRegion

def tree (region : MixedRegion V) : SplitTree ℕ ℕ :=
  region.root.regionTree 0 0

variable (region : MixedRegion V)

include region

theorem spec_eq :
    region.spec.atoms = region.root.atomList ∧
      region.spec.edges = buildEdges region.nullRejecting region.root.atomList
        (region.root.rawEdges 0) ∧ region.root.cdcSupported = true := by
  obtain ⟨atoms, edges, cdc, -⟩ := build_spec region.built region.supported
  exact ⟨atoms, edges, cdc⟩

theorem nodeCount_eq : region.tree.leaves = Finset.range region.spec.nodeCount := by
  rw [tree, CExpression.regionTree_leaves, CExpression.nodeSet, CJoinRegionSpec.nodeCount,
    region.spec_eq.1, Nat.zero_add, Finset.range_eq_Ico]

theorem edgeCount_eq : region.tree.keys = List.range region.spec.edgeCount := by
  rw [tree, CExpression.regionTree_keys, CJoinRegionSpec.edgeCount, region.spec_eq.2.1,
    buildEdges_length, CExpression.rawEdges_length, List.range_eq_range']

theorem tree_distinct : region.tree.Distinct :=
  CExpression.regionTree_distinct _ _ _

theorem tree_nodup : region.tree.keys.Nodup := by
  rw [region.edgeCount_eq]
  exact List.nodup_range

/-- What the specification holds for an inner node of the tree. -/
structure NodeEdge (region : MixedRegion V) (k : ℕ) (l r : SplitTree ℕ ℕ) (edge : CEdge V) : Prop where
  found : region.spec.edges[k]? = some edge
  left : edge.left = l.leaves
  right : edge.right = r.leaves
  ses : edge.ses = pbsPredicateCover region.spec.atoms edge.predicate
  covers : edge.ses ⊆ edge.tes
  meetsLeft : ¬ Disjoint edge.tes edge.left
  meetsRight : ¬ Disjoint edge.tes edge.right
  rules : ∀ child ∈ region.spec.edges.take k,
    ∀ rule ∈ conflictRulesFor region.nullRejecting region.spec.atoms edge child,
      rule ∈ edge.conflictRules ∨ rule.required ⊆ edge.tes

variable {k : ℕ} {edge : CEdge V}

theorem nodeEdge_of_node {l r : SplitTree ℕ ℕ} (h : SplitTree.HasNode k l r region.tree) :
    ∃ edge, region.NodeEdge k l r edge := by
  obtain ⟨-, raw, found, left, right⟩ := CExpression.rawEdges_of_node h
  obtain ⟨atoms, edges, -⟩ := region.spec_eq
  have built := buildEdges_getElem region.nullRejecting region.root.atomList found
  rw [Nat.sub_zero, ← edges] at built
  obtain ⟨tes, rules, result, covers, meetsLeft, meetsRight, enforced⟩ :=
    buildEligibility_spec region.nullRejecting region.root.atomList (region.spec.edges.take k)
      (left ▸ l.leaves_nonempty) (right ▸ r.leaves_nonempty)
  rw [result] at built
  refine ⟨_, built, left, right, ?_, covers, meetsLeft, meetsRight, ?_⟩
  · rw [atoms]
  · rw [atoms]
    intro child member rule generated
    exact enforced rule (List.mem_flatMap.mpr ⟨child, member, generated⟩)

theorem node_of_edge (found : region.spec.edges[k]? = some edge) :
    ∃ l r, SplitTree.HasNode k l r region.tree ∧ region.NodeEdge k l r edge := by
  have bound : k < region.spec.edgeCount := (List.getElem?_eq_some_iff.mp found).1
  have member : k ∈ region.tree.keys := by
    rw [region.edgeCount_eq]
    exact List.mem_range.mpr bound
  obtain ⟨l, r, h⟩ := SplitTree.exists_hasNode member
  obtain ⟨edge', facts⟩ := region.nodeEdge_of_node h
  obtain rfl : edge' = edge := Option.some.inj (facts.found.symm.trans found)
  exact ⟨l, r, h, facts⟩

theorem splits_of_tes_subset {T : CBitSet} (found : region.spec.edges[k]? = some edge)
    (inside : edge.tes ⊆ T) : k ∈ region.tree.splitKeys T := by
  obtain ⟨l, r, h, facts⟩ := region.node_of_edge found
  refine SplitTree.mem_splitKeys.mpr ⟨l, r, h, ?_, ?_⟩
  · exact not_disjoint_of_subset inside (facts.left ▸ facts.meetsLeft)
  · exact not_disjoint_of_subset inside (facts.right ▸ facts.meetsRight)

end MixedRegion

end JoinRegion
