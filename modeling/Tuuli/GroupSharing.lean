import Tuuli.LateralCuts
import Tuuli.SubsetGroups

/-!
The Memo of a pure-inner region while a plan enters it. Every node set keeps
one group of its own, and every alternative of a group is an original join or
a join of the plan over a cut of the group's node set.
-/
namespace JoinRegion
open DPHyper hiding CBitSet

variable {V : Type}

theorem CSubsetGroups.lookup_append (groups : CSubsetGroups) (entry : SEntry) (nodes : CBitSet) :
    CSubsetGroups.lookup (groups ++ [entry]) nodes = (groups.lookup nodes).or
      (if entry.nodes = nodes then some entry.group else none) := by
  induction groups with
  | nil => simp [lookup]
  | cons first rest ih =>
    simp only [List.cons_append, lookup, ih]
    split
    · rfl
    · rfl

/-- A set that a plan can form: a single input, or one with the providers of its members. -/
def Formable (spec : CJoinRegionSpec V) (nodes : CBitSet) : Prop :=
  nodes.card = 1 ∨ DependencyOrder.Closed spec.providers nodes

structure Planned (spec : CJoinRegionSpec V) (left right : CBitSet) : Prop where
  formableLeft : Formable spec left
  formableRight : Formable spec right
  formableBoth : Formable spec (left ∪ right)

theorem Planned.symm {spec : CJoinRegionSpec V} {left right : CBitSet}
    (planned : Planned spec left right) : Planned spec right left :=
  ⟨planned.formableRight, planned.formableLeft, Finset.union_comm left right ▸ planned.formableBoth⟩

/-- `predicate` is what a join of the Memo over this cut can carry. -/
def Placed (spec : CJoinRegionSpec V) (left right : CBitSet) (predicate : CPredicate V) : Prop :=
  (∃ edge ∈ spec.edges, edge.left = left ∧ edge.right = right ∧ predicate = edge.predicate) ∨
    (Planned spec left right ∧ predicate = planPredicate spec left right)

/-- The groups of node sets are distinct, and each alternative joins the groups of a cut. -/
structure CMemo.Consistent (spec : CJoinRegionSpec V) (memo : CMemo V) : Prop where
  injective : ∀ {nodes other group}, memo.groups.lookup nodes = some group →
    memo.groups.lookup other = some group → nodes = other
  bounded : ∀ {nodes group}, memo.groups.lookup nodes = some group → group < memo.groupCount
  component : ∀ node < spec.nodeCount, memo.groups.lookup {node} = some node
  inside : ∀ {nodes group}, memo.groups.lookup nodes = some group →
    nodes.Nonempty ∧ nodes ⊆ Finset.range spec.nodeCount
  placed : ∀ {group expr}, (group, expr) ∈ memo.alternatives → ∃ left right,
    memo.groups.lookup (left ∪ right) = some group ∧
    memo.groups.lookup left = some expr.leftGroup ∧
    memo.groups.lookup right = some expr.rightGroup ∧
    Disjoint left right ∧ Placed spec left right expr.predicate

structure CMemo.Extends (memo more : CMemo V) : Prop where
  groups : ∀ {nodes group}, memo.groups.lookup nodes = some group →
    more.groups.lookup nodes = some group
  alternatives : memo.alternatives ⊆ more.alternatives

variable {memo more : CMemo V}

theorem CMemo.Extends.refl (memo : CMemo V) : memo.Extends memo :=
  ⟨id, List.Subset.refl _⟩

theorem CMemo.Extends.trans {middle : CMemo V} (first : memo.Extends middle)
    (second : middle.Extends more) : memo.Extends more :=
  ⟨fun found => second.groups (first.groups found),
    fun _ member => second.alternatives (first.alternatives member)⟩

/-- The Memo offers a join of `left` and `right` with this predicate. -/
def CMemo.Offers (memo : CMemo V) (left right : CBitSet) (predicate : CPredicate V) : Prop :=
  ∃ group l r, memo.groups.lookup (left ∪ right) = some group ∧
    memo.groups.lookup left = some l ∧ memo.groups.lookup right = some r ∧
    (group, CGroupExpression.mk l r predicate) ∈ memo.alternatives

variable {left right : CBitSet}

theorem CMemo.Offers.mono {predicate : CPredicate V} (offers : memo.Offers left right predicate)
    (extension : memo.Extends more) : more.Offers left right predicate := by
  obtain ⟨group, l, r, foundJoined, foundLeft, foundRight, member⟩ := offers
  exact ⟨group, l, r, extension.groups foundJoined, extension.groups foundLeft,
    extension.groups foundRight, extension.alternatives member⟩

/-- What one insertion adds: the join is offered and its group is the one of its node set. -/
structure CMemo.Inserted (spec : CJoinRegionSpec V) (memo : CMemo V) (left right : CBitSet)
    (predicate : CPredicate V) (result : CMemo V × ℕ) : Prop where
  consistent : result.1.Consistent spec
  extension : memo.Extends result.1
  group : result.1.groups.lookup (left ∪ right) = some result.2
  offers : result.1.Offers left right predicate

section Insertion
variable {spec : CJoinRegionSpec V} {memo : CMemo V} {left right : CBitSet} {l r : ℕ}
  {predicate : CPredicate V}

theorem CMemo.Consistent.insertJoin_existing (consistent : memo.Consistent spec) {group : ℕ}
    (foundLeft : memo.groups.lookup left = some l) (foundRight : memo.groups.lookup right = some r)
    (disjoint : Disjoint left right) (placed : Placed spec left right predicate)
    (found : memo.groups.lookup (left ∪ right) = some group) :
    memo.Inserted spec left right predicate
      (memo.insertJoin (left ∪ right) (some group) ⟨l, r, predicate⟩) := by
  have result : memo.insertJoin (left ∪ right) (some group) ⟨l, r, predicate⟩
      = ({ memo with alternatives := memo.alternatives ++ [(group, ⟨l, r, predicate⟩)] }, group) := by
    simp only [insertJoin, pgroupInsert, CSubsetGroups.record, found]
  rw [result]
  constructor
  · refine ⟨consistent.injective, consistent.bounded, consistent.component, consistent.inside, ?_⟩
    intro other expr member
    rcases List.mem_append.mp member with old | new
    · exact consistent.placed old
    · cases List.mem_singleton.mp new
      exact ⟨left, right, found, foundLeft, foundRight, disjoint, placed⟩
  · exact ⟨id, List.subset_append_left _ _⟩
  · exact found
  · exact ⟨group, l, r, found, foundLeft, foundRight, by simp⟩

theorem CMemo.insertJoin_fresh_eq (fresh : memo.groups.lookup (left ∪ right) = none) :
    memo.insertJoin (left ∪ right) none ⟨l, r, predicate⟩
      = (⟨memo.groups ++ [⟨left ∪ right, memo.groupCount⟩],
          memo.alternatives ++ [(memo.groupCount, ⟨l, r, predicate⟩)], memo.groupCount + 1⟩,
        memo.groupCount) := by
  simp only [insertJoin, pgroupInsert, CSubsetGroups.record, fresh]

theorem CMemo.Consistent.insertJoin_fresh (consistent : memo.Consistent spec)
    (foundLeft : memo.groups.lookup left = some l) (foundRight : memo.groups.lookup right = some r)
    (disjoint : Disjoint left right) (placed : Placed spec left right predicate)
    (fresh : memo.groups.lookup (left ∪ right) = none) :
    memo.Inserted spec left right predicate
      (memo.insertJoin (left ∪ right) none ⟨l, r, predicate⟩) := by
  have lookup : ∀ nodes, CSubsetGroups.lookup
      (memo.groups ++ [⟨left ∪ right, memo.groupCount⟩]) nodes
        = (memo.groups.lookup nodes).or
          (if left ∪ right = nodes then some memo.groupCount else none) :=
    CSubsetGroups.lookup_append memo.groups _
  have keeps : ∀ {nodes group}, memo.groups.lookup nodes = some group → CSubsetGroups.lookup
      (memo.groups ++ [⟨left ∪ right, memo.groupCount⟩]) nodes = some group := by
    intro nodes group found
    rw [lookup, found]
    rfl
  have joined : CSubsetGroups.lookup (memo.groups ++ [⟨left ∪ right, memo.groupCount⟩])
      (left ∪ right) = some memo.groupCount := by
    rw [lookup, fresh, if_pos rfl]
    rfl
  -- every set found afterwards was there before or is the new one
  have cases : ∀ {nodes group}, CSubsetGroups.lookup
      (memo.groups ++ [⟨left ∪ right, memo.groupCount⟩]) nodes = some group →
      memo.groups.lookup nodes = some group ∨
        (nodes = left ∪ right ∧ group = memo.groupCount) := by
    intro nodes group found
    rw [lookup] at found
    cases old : memo.groups.lookup nodes with
    | some g =>
      rw [old] at found
      exact .inl found
    | none =>
      rw [old, Option.none_or] at found
      split at found
      · rename_i same
        exact .inr ⟨same.symm, (Option.some.inj found).symm⟩
      · contradiction
  rw [CMemo.insertJoin_fresh_eq fresh]
  constructor
  · refine ⟨?_, ?_, fun node bound => keeps (consistent.component node bound), ?_, ?_⟩
    · intro nodes other group first second
      rcases cases first with old | ⟨rfl, rfl⟩ <;> rcases cases second with old' | ⟨rfl, new⟩
      · exact consistent.injective old old'
      · exact absurd (consistent.bounded old) (by omega)
      · exact absurd (consistent.bounded old') (Nat.lt_irrefl _)
      · rfl
    · intro nodes group found
      rcases cases found with old | ⟨-, rfl⟩
      · exact Nat.lt_succ_of_lt (consistent.bounded old)
      · exact Nat.lt_succ_self _
    · intro nodes group found
      rcases cases found with old | ⟨rfl, -⟩
      · exact consistent.inside old
      · exact ⟨(consistent.inside foundLeft).1.mono Finset.subset_union_left,
          Finset.union_subset (consistent.inside foundLeft).2 (consistent.inside foundRight).2⟩
    · intro group expr member
      rcases List.mem_append.mp member with old | new
      · obtain ⟨a, b, foundJoined, foundA, foundB, rest⟩ := consistent.placed old
        exact ⟨a, b, keeps foundJoined, keeps foundA, keeps foundB, rest⟩
      · cases List.mem_singleton.mp new
        exact ⟨left, right, joined, keeps foundLeft, keeps foundRight, disjoint, placed⟩
  · exact ⟨keeps, List.subset_append_left _ _⟩
  · exact joined
  · exact ⟨memo.groupCount, l, r, joined, keeps foundLeft, keeps foundRight, by simp⟩

theorem CMemo.Consistent.insertJoin (consistent : memo.Consistent spec)
    (foundLeft : memo.groups.lookup left = some l) (foundRight : memo.groups.lookup right = some r)
    (disjoint : Disjoint left right) (placed : Placed spec left right predicate) :
    memo.Inserted spec left right predicate
      (memo.insertJoin (left ∪ right) (memo.groups.lookup (left ∪ right)) ⟨l, r, predicate⟩) := by
  cases found : memo.groups.lookup (left ∪ right) with
  | some group => exact consistent.insertJoin_existing foundLeft foundRight disjoint placed found
  | none => exact consistent.insertJoin_fresh foundLeft foundRight disjoint placed found

end Insertion

theorem CSubsetGroups.lookup_map_singleton (values : List ℕ) (nodes : CBitSet) (group : ℕ) :
    CSubsetGroups.lookup (values.map (fun node => (⟨{node}, node⟩ : SEntry))) nodes = some group ↔
      group ∈ values ∧ nodes = {group} := by
  induction values with
  | nil => simp [lookup]
  | cons first rest ih =>
    simp only [List.map_cons, lookup]
    split
    · rename_i same
      rw [Option.some.injEq, ← same, Finset.singleton_inj, List.mem_cons]
      constructor
      · rintro rfl
        exact ⟨.inl rfl, rfl⟩
      · rintro ⟨-, rfl⟩
        rfl
    · rename_i other
      rw [ih, List.mem_cons]
      constructor
      · rintro ⟨member, rfl⟩
        exact ⟨.inr member, rfl⟩
      · rintro ⟨rfl | member, rfl⟩
        · exact absurd rfl other
        · exact ⟨member, rfl⟩

theorem CMemo.components_consistent (spec : CJoinRegionSpec V) :
    (CMemo.components spec.nodeCount : CMemo V).Consistent spec := by
  have found : ∀ {nodes group}, (CMemo.components spec.nodeCount : CMemo V).groups.lookup nodes
      = some group ↔ group < spec.nodeCount ∧ nodes = {group} := by
    intro nodes group
    rw [components, CSubsetGroups.lookup_map_singleton, List.mem_range]
  constructor
  · intro nodes other group first second
    rw [(found.mp first).2, (found.mp second).2]
  · intro nodes group first
    exact (found.mp first).1
  · intro node bound
    exact found.mpr ⟨bound, rfl⟩
  · intro nodes group first
    obtain ⟨bound, rfl⟩ := found.mp first
    exact ⟨Finset.singleton_nonempty _, by simpa using bound⟩
  · intro group expr member
    simp [components] at member

def CEdge.core (edge : CEdge V) : CBitSet × CBitSet × CPredicate V :=
  (edge.left, edge.right, edge.predicate)

theorem buildEdges_core (nullRejecting : CPredicate V → CColRefSet → Bool) (atoms : List CAtom)
    (edges : List (CEdge V)) :
    (buildEdges nullRejecting atoms edges).map CEdge.core = edges.map CEdge.core := by
  induction edges using List.reverseRecOn with
  | nil => rfl
  | append_singleton edges edge ih =>
    obtain ⟨tes, rules, result, -⟩ := buildEligibility_grows nullRejecting atoms
      (buildEdges nullRejecting atoms edges) edge
    rw [buildEdges_concat, List.map_append, List.map_append, ih, List.map_singleton, result]
    rfl

theorem insertOriginal_core {edge other : CEdge V} (same : edge.core = other.core)
    (memo : CMemo V) : memo.insertOriginal edge = memo.insertOriginal other := by
  simp only [CEdge.core, Prod.mk.injEq] at same
  simp only [CMemo.insertOriginal, same]

theorem foldl_insertOriginal_core {edges others : List (CEdge V)}
    (same : edges.map CEdge.core = others.map CEdge.core) (memo : CMemo V) :
    edges.foldl CMemo.insertOriginal memo = others.foldl CMemo.insertOriginal memo := by
  induction edges generalizing others memo with
  | nil =>
    cases others with
    | nil => rfl
    | cons => simp at same
  | cons edge rest ih =>
    cases others with
    | nil => simp at same
    | cons other others =>
      obtain ⟨head, tail⟩ := List.cons.inj same
      rw [List.foldl_cons, List.foldl_cons, insertOriginal_core head, ih tail]

namespace CExpression

theorem nodeSet_nonempty (expr : CExpression V) (first : ℕ) : (expr.nodeSet first).Nonempty := by
  have some := expr.atomList_pos
  exact Finset.nonempty_Ico.mpr (by omega)

theorem nodeSet_disjoint (l r : CExpression V) (first : ℕ) :
    Disjoint (l.nodeSet first) (r.nodeSet (first + l.atomList.length)) :=
  Finset.Ico_disjoint_Ico_consecutive _ _ _

theorem rawEdges_inside {expr : CExpression V} {first : ℕ} {edge : CEdge V}
    (member : edge ∈ expr.rawEdges first) : edge.left ∪ edge.right ⊆ expr.nodeSet first := by
  induction expr generalizing first with
  | atom a => simp [rawEdges] at member
  | join op l r predicate notinComparison ihl ihr =>
    rw [nodeSet_join]
    simp only [rawEdges, List.mem_append, List.mem_singleton] at member
    rcases member with (left | right) | rfl
    · exact (ihl left).trans Finset.subset_union_left
    · exact (ihr right).trans Finset.subset_union_right
    · exact Finset.Subset.refl _

theorem rawEdges_sides {expr : CExpression V} {first : ℕ} {edge : CEdge V}
    (member : edge ∈ expr.rawEdges first) :
    edge.left.Nonempty ∧ edge.right.Nonempty ∧ Disjoint edge.left edge.right := by
  induction expr generalizing first with
  | atom a => simp [rawEdges] at member
  | join op l r predicate notin ihl ihr =>
    simp only [rawEdges, List.mem_append, List.mem_singleton] at member
    rcases member with (left | right) | rfl
    · exact ihl left
    · exact ihr right
    · exact ⟨l.nodeSet_nonempty first, r.nodeSet_nonempty _, nodeSet_disjoint l r first⟩

end CExpression

/-- The Memo after the joins of `expr` were inserted. -/
structure Seeded (spec : CJoinRegionSpec V) (memo : CMemo V) (expr : CExpression V) (first : ℕ)
    (result : CMemo V) : Prop where
  consistent : result.Consistent spec
  extension : memo.Extends result
  frame : ∀ {nodes group}, result.groups.lookup nodes = some group →
    memo.groups.lookup nodes = some group ∨ nodes ⊆ expr.nodeSet first
  groupCount : result.groupCount = memo.groupCount + expr.joinCount
  found : ∃ group, result.groups.lookup (expr.nodeSet first) = some group ∧
    (expr.joinCount ≠ 0 → group + 1 = result.groupCount)
  offers : ∀ edge ∈ expr.rawEdges first, result.Offers edge.left edge.right edge.predicate

theorem card_union_ge_two (nonemptyLeft : left.Nonempty) (nonemptyRight : right.Nonempty)
    (disjoint : Disjoint left right) : 2 ≤ (left ∪ right).card := by
  rw [Finset.card_union_of_disjoint disjoint]
  have := nonemptyLeft.card_pos
  have := nonemptyRight.card_pos
  omega

section Seeding
variable {spec : CJoinRegionSpec V} {memo before : CMemo V} {l r : CExpression V} {first : ℕ}

/-- No set of two or more nodes of the region `expr` spans has a group. -/
def Unjoined (memo : CMemo V) (expr : CExpression V) (first : ℕ) : Prop :=
  ∀ nodes ⊆ expr.nodeSet first, 2 ≤ nodes.card → memo.groups.lookup nodes = none

variable {op : EOperatorId} {predicate : CPredicate V} {notin : Option (CPredicate V)}

theorem Seeded.unjoined_right (seeded : Seeded spec memo l first before)
    (unjoined : Unjoined memo (.join op l r predicate notin) first) :
    Unjoined before r (first + l.atomList.length) := by
  intro nodes inside size
  rw [Unjoined, CExpression.nodeSet_join] at unjoined
  cases old : before.groups.lookup nodes with
  | none => rfl
  | some group =>
    rcases seeded.frame old with start | left
    · rw [unjoined nodes (inside.trans Finset.subset_union_right) size] at start
      contradiction
    · have disjoint := CExpression.nodeSet_disjoint l r first
      simp [(disjoint.mono_left left).eq_bot_of_le inside] at size

theorem Seeded.unjoined_whole {middle : CMemo V} (left : Seeded spec memo l first middle)
    (right : Seeded spec middle r (first + l.atomList.length) before)
    (unjoined : Unjoined memo (.join op l r predicate notin) first) :
    before.groups.lookup (l.nodeSet first ∪ r.nodeSet (first + l.atomList.length)) = none := by
  have disjoint := CExpression.nodeSet_disjoint l r first
  have nonemptyLeft := l.nodeSet_nonempty first
  have nonemptyRight := r.nodeSet_nonempty (first + l.atomList.length)
  rw [Unjoined, CExpression.nodeSet_join] at unjoined
  cases old : before.groups.lookup _ with
  | none => rfl
  | some group =>
    rcases right.frame old with older | inside
    · rcases left.frame older with start | inside
      · rw [unjoined _ (Finset.Subset.refl _)
          (card_union_ge_two nonemptyLeft nonemptyRight disjoint)] at start
        contradiction
      · exact absurd (disjoint.symm.eq_bot_of_le (Finset.union_subset_right inside))
          nonemptyRight.ne_empty
    · exact absurd (disjoint.eq_bot_of_le (Finset.union_subset_left inside)) nonemptyLeft.ne_empty

theorem CMemo.insertOriginal_eq {edge : CEdge V} {groupLeft groupRight : ℕ}
    (foundLeft : memo.groups.lookup edge.left = some groupLeft)
    (foundRight : memo.groups.lookup edge.right = some groupRight) :
    memo.insertOriginal edge = (memo.insertJoin (edge.left ∪ edge.right) none
      ⟨groupLeft, groupRight, edge.predicate⟩).1 := by
  simp only [insertOriginal, foundLeft, foundRight]

theorem Seeded.join {op : EOperatorId} {predicate : CPredicate V} {notin : Option (CPredicate V)}
    {middle : CMemo V} {edge : CEdge V} (left : Seeded spec memo l first middle)
    (right : Seeded spec middle r (first + l.atomList.length) before)
    (unjoined : Unjoined memo (.join op l r predicate notin) first)
    (edges : (CExpression.join op l r predicate notin).rawEdges first = l.rawEdges first ++
      r.rawEdges (first + l.atomList.length) ++ [edge])
    (sides : edge.left = l.nodeSet first ∧ edge.right = r.nodeSet (first + l.atomList.length))
    (listed : ∃ same ∈ spec.edges, same.core = edge.core) :
    Seeded spec memo (.join op l r predicate notin) first (before.insertOriginal edge) := by
  have fresh := left.unjoined_whole right unjoined
  obtain ⟨groupLeft, foundLeft, -⟩ := left.found
  obtain ⟨groupRight, foundRight, -⟩ := right.found
  replace foundLeft := right.extension.groups foundLeft
  have disjoint := CExpression.nodeSet_disjoint l r first
  have whole := CExpression.nodeSet_join op l r predicate notin first
  rw [← sides.1, ← sides.2] at fresh disjoint whole
  rw [← sides.1] at foundLeft
  rw [← sides.2] at foundRight
  obtain ⟨same, member, core⟩ := listed
  simp only [CEdge.core, Prod.mk.injEq] at core
  have inserted := right.consistent.insertJoin_fresh foundLeft foundRight disjoint
    (.inl ⟨same, member, core.1, core.2.1, core.2.2.symm⟩) fresh
  rw [CMemo.insertOriginal_eq foundLeft foundRight]
  constructor
  · exact inserted.consistent
  · exact (left.extension.trans right.extension).trans inserted.extension
  · intro nodes group found
    rw [CMemo.insertJoin_fresh_eq fresh, CSubsetGroups.lookup_append] at found
    rw [whole]
    rcases Option.or_eq_some_iff.mp found with old | ⟨-, new⟩
    · rcases right.frame old with older | inside
      · rcases left.frame older with start | inside
        · exact .inl start
        · exact .inr ((inside.trans_eq sides.1.symm).trans Finset.subset_union_left)
      · exact .inr ((inside.trans_eq sides.2.symm).trans Finset.subset_union_right)
    · split at new
      · rename_i same
        exact .inr same.symm.subset
      · contradiction
  · rw [CMemo.insertJoin_fresh_eq fresh]
    simp only [right.groupCount, left.groupCount, CExpression.joinCount]
    omega
  · rw [whole]
    refine ⟨_, inserted.group, fun _ => ?_⟩
    rw [CMemo.insertJoin_fresh_eq fresh]
  · intro other member
    rw [edges, List.mem_append, List.mem_append, List.mem_singleton] at member
    rcases member with (inLeft | inRight) | rfl
    · exact (left.offers other inLeft).mono (right.extension.trans inserted.extension)
    · exact (right.offers other inRight).mono inserted.extension
    · exact inserted.offers

theorem seeded_rawEdges (expr : CExpression V) (first : ℕ) (consistent : memo.Consistent spec)
    (bound : first + expr.atomList.length ≤ spec.nodeCount)
    (listed : ∀ edge ∈ expr.rawEdges first, ∃ same ∈ spec.edges, same.core = edge.core)
    (unjoined : Unjoined memo expr first) :
    Seeded spec memo expr first ((expr.rawEdges first).foldl CMemo.insertOriginal memo) := by
  induction expr generalizing first memo with
  | atom a =>
    refine ⟨consistent, .refl memo, .inl, rfl, ⟨first, ?_, fun none => absurd rfl none⟩, ?_⟩
    · simp only [CExpression.atomList, List.length_singleton] at bound
      have single : (CExpression.atom a : CExpression V).nodeSet first = {first} := by
        simp [CExpression.nodeSet, CExpression.atomList]
      rw [single]
      exact consistent.component first (by omega)
    · simp [CExpression.rawEdges]
  | join op l r predicate notin ihl ihr =>
    simp only [CExpression.atomList, List.length_append] at bound
    simp only [CExpression.rawEdges, List.mem_append, List.mem_singleton] at listed
    have left := ihl first consistent (by omega)
      (fun edge member => listed edge (.inl (.inl member)))
      (fun nodes inside => unjoined nodes (by
        rw [CExpression.nodeSet_join]
        exact inside.trans Finset.subset_union_left))
    have right := ihr (first + l.atomList.length) left.consistent (by omega)
      (fun edge member => listed edge (.inl (.inr member))) (left.unjoined_right unjoined)
    simp only [CExpression.rawEdges, List.foldl_append, List.foldl_cons, List.foldl_nil]
    exact left.join right unjoined rfl ⟨rfl, rfl⟩ (listed _ (.inr rfl))

end Seeding

section Materialization
variable {spec : CJoinRegionSpec V} {memo : CMemo V} {left right : CBitSet}

theorem crosses_comm {cover : CBitSet} : Crosses left right cover ↔ Crosses right left cover := by
  unfold Crosses
  rw [Finset.union_comm, and_comm (a := ¬ Disjoint left cover)]

theorem mem_planPredicate {conjunct : CConjunct V} :
    conjunct ∈ (planPredicate spec left right).conjuncts ↔
      conjunct ∈ spec.conjuncts ∧ (Crosses left right (conjunct.cover spec.atoms) ∨
        ((left ∪ right).card = spec.nodeCount ∧ (conjunct.cover spec.atoms).card < 2)) := by
  simp only [planPredicate, pexprCutPredicate, List.mem_filter, decide_eq_true_eq]

theorem planPredicate_comm (spec : CJoinRegionSpec V) (left right : CBitSet) :
    planPredicate spec left right = planPredicate spec right left := by
  simp only [planPredicate, pexprCutPredicate, crosses_comm, Finset.union_comm right left]

variable {l r : ℕ}

theorem CMemo.Consistent.target_eq (consistent : memo.Consistent spec)
    (root : memo.groups.lookup (Finset.range spec.nodeCount) = some (rootGroup spec))
    (foundLeft : memo.groups.lookup left = some l) (foundRight : memo.groups.lookup right = some r) :
    (if (left ∪ right).card = spec.nodeCount then some (rootGroup spec)
      else memo.groups.lookup (left ∪ right)) = memo.groups.lookup (left ∪ right) := by
  split
  · rename_i full
    have whole : left ∪ right = Finset.range spec.nodeCount := by
      apply Finset.eq_of_subset_of_card_le
      · exact Finset.union_subset (consistent.inside foundLeft).2 (consistent.inside foundRight).2
      · rw [Finset.card_range, full]
    rw [whole, root]
  · rfl

/-- A pair of the plan: its join is offered, in one orientation at least. -/
structure Materialized (spec : CJoinRegionSpec V) (memo : CMemo V) (left right : CBitSet)
    (result : CMemo V) : Prop where
  consistent : result.Consistent spec
  extension : memo.Extends result
  group : ∃ group, result.groups.lookup (left ∪ right) = some group
  offers : result.Offers left right (planPredicate spec left right) ∨
    result.Offers right left (planPredicate spec left right)

theorem Materialized.symm {result : CMemo V} (h : Materialized spec memo left right result) :
    Materialized spec memo right left result := by
  refine ⟨h.consistent, h.extension, ?_, ?_⟩
  · rw [Finset.union_comm]
    exact h.group
  · rw [planPredicate_comm]
    exact h.offers.symm

theorem CMemo.Consistent.insertPair (consistent : memo.Consistent spec)
    (foundLeft : memo.groups.lookup left = some l) (foundRight : memo.groups.lookup right = some r)
    (disjoint : Disjoint left right) (planned : Planned spec left right) {one two : CMemo V × ℕ}
    (first : memo.insertJoin (left ∪ right) (memo.groups.lookup (left ∪ right)) ⟨l, r,
      planPredicate spec left right⟩ = one)
    (second : one.1.insertJoin (left ∪ right) (some one.2) ⟨r, l, planPredicate spec left right⟩ =
      two) : Materialized spec memo left right one.1 ∧ Materialized spec memo left right two.1 := by
  have forward := consistent.insertJoin foundLeft foundRight disjoint (.inr ⟨planned, rfl⟩)
  rw [first] at forward
  have joined := forward.group
  rw [Finset.union_comm] at joined
  have backward := forward.consistent.insertJoin_existing
    (forward.extension.groups foundRight) (forward.extension.groups foundLeft) disjoint.symm
    (.inr ⟨planned.symm, rfl⟩) joined
  rw [planPredicate_comm, Finset.union_comm right left, second] at backward
  constructor
  · exact ⟨forward.consistent, forward.extension, ⟨_, forward.group⟩, .inl forward.offers⟩
  · refine ⟨backward.consistent, forward.extension.trans backward.extension, ?_, ?_⟩
    · exact ⟨_, backward.extension.groups forward.group⟩
    · exact .inl (forward.offers.mono backward.extension)

theorem materializePair_spec (consistent : memo.Consistent spec)
    (root : memo.groups.lookup (Finset.range spec.nodeCount) = some (rootGroup spec)) {pair : SPair}
    (foundLeft : memo.groups.lookup pair.left = some l)
    (foundRight : memo.groups.lookup pair.right = some r) (disjoint : Disjoint pair.left pair.right)
    (planned : Planned spec pair.left pair.right)
    (request : (fBuildJoinRequest spec pair.left pair.right).isSome) :
    Materialized spec memo pair.left pair.right (materializePair spec memo pair) := by
  obtain ⟨request, built⟩ := Option.isSome_iff_exists.mp request
  have target := consistent.target_eq root foundLeft foundRight
  simp only [materializePair, foundLeft, foundRight, built, target]
  cases request.swapped with
  | false =>
    have both := consistent.insertPair foundLeft foundRight disjoint planned rfl rfl
    split
    · exact both.1
    · exact both.2
  | true =>
    have both := consistent.insertPair foundRight foundLeft disjoint.symm planned.symm rfl rfl
    rw [planPredicate_comm, Finset.union_comm] at both
    split
    · exact both.1.symm
    · exact both.2.symm

end Materialization

namespace EnumeratedRegion

variable (region : EnumeratedRegion V) {edge : CEdge V}

theorem edges_core :
    region.spec.edges.map CEdge.core = (region.root.rawEdges 0).map CEdge.core := by
  rw [(build_spec region.built region.supported).2.1, buildEdges_core]

theorem nodeCount_eq : region.spec.nodeCount = region.root.atomList.length := by
  rw [CJoinRegionSpec.nodeCount, (build_spec region.built region.supported).1]

theorem nodeSet_eq : region.root.nodeSet 0 = Finset.range region.spec.nodeCount := by
  rw [region.nodeCount_eq, CExpression.nodeSet, Nat.zero_add, Finset.range_eq_Ico]

theorem exists_edge (member : edge ∈ region.root.rawEdges 0) :
    ∃ same ∈ region.spec.edges, same.core = edge.core := by
  have image := List.mem_map_of_mem (f := CEdge.core) member
  rw [← region.edges_core] at image
  exact List.mem_map.mp image

theorem exists_rawEdge (member : edge ∈ region.spec.edges) :
    ∃ same ∈ region.root.rawEdges 0, same.core = edge.core := by
  have image := List.mem_map_of_mem (f := CEdge.core) member
  rw [region.edges_core] at image
  exact List.mem_map.mp image

theorem edge_disjoint (member : edge ∈ region.spec.edges) : Disjoint edge.left edge.right := by
  obtain ⟨raw, listed, core⟩ := region.exists_rawEdge member
  simp only [CEdge.core, Prod.mk.injEq] at core
  rw [← core.1, ← core.2.1]
  exact (CExpression.rawEdges_sides listed).2.2

end EnumeratedRegion

structure PureInnerRegion (V : Type) extends EnumeratedRegion V where
  pureInner : spec.pureInner = true

namespace PureInnerRegion

variable (region : PureInnerRegion V)

theorem seeded : Seeded region.spec (.components region.spec.nodeCount) region.root 0
    (originalMemo region.spec) := by
  rw [originalMemo, foldl_insertOriginal_core region.edges_core]
  apply seeded_rawEdges
  · exact CMemo.components_consistent region.spec
  · rw [region.nodeCount_eq, Nat.zero_add]
  · intro edge member
    exact region.exists_edge member
  · intro nodes _ size
    cases found : CSubsetGroups.lookup _ nodes with
    | none => rfl
    | some group =>
      rw [CMemo.components, CSubsetGroups.lookup_map_singleton] at found
      rw [found.2, Finset.card_singleton] at size
      omega

theorem rootGroup_lookup : (originalMemo region.spec).groups.lookup
    (Finset.range region.spec.nodeCount) = some (rootGroup region.spec) := by
  obtain ⟨group, found, last⟩ := region.seeded.found
  have joins := (build_spec region.built region.supported).2.2.2
  have count : region.spec.edgeCount = region.root.joinCount := by
    rw [CJoinRegionSpec.edgeCount, (build_spec region.built region.supported).2.1,
      buildEdges_length, CExpression.rawEdges_length]
  have size := region.seeded.groupCount
  have numbered := last joins
  simp only [CMemo.components] at size
  rw [← region.nodeSet_eq, found, rootGroup, count]
  congr 1
  omega

structure Holds (pairs : List SPair) (memo : CMemo V) : Prop where
  consistent : memo.Consistent region.spec
  extension : (originalMemo region.spec).Extends memo
  formed : ∀ {nodes}, Formed region.spec.nodeCount (pairs.map SPair.cut) nodes →
    ∃ group, memo.groups.lookup nodes = some group
  offers : ∀ pair ∈ pairs,
    memo.Offers pair.left pair.right (planPredicate region.spec pair.left pair.right) ∨
      memo.Offers pair.right pair.left (planPredicate region.spec pair.left pair.right)

theorem materialize_holds {pairs : List SPair}
    (ordered : Topological region.spec.nodeCount region.Accepts (pairs.map SPair.cut)) :
    region.Holds pairs (materialize region.spec pairs) := by
  induction pairs using List.reverseRecOn with
  | nil =>
    refine ⟨region.seeded.consistent, .refl _, ?_, by simp⟩
    rintro nodes (⟨node, bound, rfl⟩ | ⟨cut, member, -⟩)
    · exact ⟨node, region.seeded.consistent.component node bound⟩
    · simp at member
  | append_singleton pairs pair ih =>
    rw [List.map_append] at ordered
    obtain ⟨earlier, disjoint, formedLeft, formedRight, accepted⟩ := ordered.snoc_inv
    have before := ih earlier
    obtain ⟨l, foundLeft⟩ := before.formed formedLeft
    obtain ⟨r, foundRight⟩ := before.formed formedRight
    have step := materializePair_spec before.consistent
      (before.extension.groups region.rootGroup_lookup) foundLeft foundRight disjoint
      ⟨region.closed_of_formed earlier formedLeft, region.closed_of_formed earlier formedRight,
        .inr (region.closed_of_accepted disjoint accepted)⟩ accepted
    have run : materialize region.spec (pairs ++ [pair])
        = materializePair region.spec (materialize region.spec pairs) pair := by
      simp only [materialize, List.foldl_append, List.foldl_cons, List.foldl_nil]
    rw [run]
    refine ⟨step.consistent, before.extension.trans step.extension, ?_, ?_⟩
    · rintro nodes (single | ⟨cut, member, rfl⟩)
      · obtain ⟨group, found⟩ := before.formed (.inl single)
        exact ⟨group, step.extension.groups found⟩
      · rw [List.map_append, List.mem_append] at member
        rcases member with old | new
        · obtain ⟨group, found⟩ := before.formed (.inr ⟨cut, old, rfl⟩)
          exact ⟨group, step.extension.groups found⟩
        · rw [List.map_singleton, List.mem_singleton] at new
          rw [new]
          exact step.group
    · intro other member
      rcases List.mem_append.mp member with old | new
      · exact (before.offers other old).imp (·.mono step.extension) (·.mono step.extension)
      · rw [List.mem_singleton.mp new]
        exact step.offers

end PureInnerRegion

end JoinRegion
