import Mathlib.Logic.Relation
import Tuuli.GroupSharing
import Tuuli.RegionSemantics

/-!
Which conjuncts survive when the joins of a plan share groups with the
original joins of a pure-inner region. A join of the plan has the conjuncts
that cross its cut, and the full join also those over less than two inputs; an
original join has the conjuncts the query wrote on it. An extracted expression
mixes both, so a conjunct is safe exactly when the original join where the
plan would place it has it too, or another original join that can only be
taken together with that one: an input that lacks a provider is formed by no
plan, so its original join comes with the original join above it.
-/
namespace JoinRegion
open DPHyper hiding CBitSet

variable {V : Type}

def Home (spec : CJoinRegionSpec V) (conjunct : CConjunct V) (edge : CEdge V) : Prop :=
  Crosses edge.left edge.right (conjunct.cover spec.atoms) ∨
    ((conjunct.cover spec.atoms).card < 2 ∧ (edge.left ∪ edge.right).card = spec.nodeCount)

/-- One input of `parent` is what `child` joins, and it lacks a provider of its members. -/
structure Inseparable (spec : CJoinRegionSpec V) (child parent : CEdge V) : Prop where
  child_mem : child ∈ spec.edges
  parent_mem : parent ∈ spec.edges
  input : parent.left = child.all ∨ parent.right = child.all
  lacks : ¬ DependencyOrder.Closed spec.providers child.all

def Tied (spec : CJoinRegionSpec V) : CEdge V → CEdge V → Prop :=
  Relation.EqvGen (Inseparable spec)

/-- Every conjunct over two or more inputs stands on the original join whose sides it connects,
every other conjunct on the root, or on a join tied to that one. -/
def AtHome (spec : CJoinRegionSpec V) : Prop :=
  ∀ edge ∈ spec.edges, ∀ conjunct ∈ spec.conjuncts, Home spec conjunct edge →
    ∃ carrier, Tied spec edge carrier ∧ conjunct ∈ carrier.predicate.conjuncts

variable {left right cover : CBitSet}

theorem cover_subset (spec : CJoinRegionSpec V) (conjunct : CConjunct V) :
    conjunct.cover spec.atoms ⊆ Finset.range spec.nodeCount :=
  Finset.filter_subset _ _

theorem subset_side_of_not_crosses (inside : cover ⊆ left ∪ right)
    (stays : ¬ Crosses left right cover) : cover ⊆ left ∨ cover ⊆ right := by
  by_cases meetsLeft : Disjoint left cover
  · right
    intro node member
    rcases Finset.mem_union.mp (inside member) with inLeft | inRight
    · exact absurd member (Finset.disjoint_left.mp meetsLeft inLeft)
    · exact inRight
  · left
    have meetsRight : Disjoint right cover := by
      by_contra meets
      exact stays ⟨inside, meetsLeft, meets⟩
    intro node member
    rcases Finset.mem_union.mp (inside member) with inLeft | inRight
    · exact inLeft
    · exact absurd member (Finset.disjoint_left.mp meetsRight inRight)

theorem crosses_card (disjoint : Disjoint left right) (crosses : Crosses left right cover) :
    2 ≤ cover.card := by
  obtain ⟨-, meetsLeft, meetsRight⟩ := crosses
  obtain ⟨a, inLeft, coverA⟩ := Finset.not_disjoint_iff.mp meetsLeft
  obtain ⟨b, inRight, coverB⟩ := Finset.not_disjoint_iff.mp meetsRight
  apply Finset.one_lt_card.mpr
  refine ⟨a, coverA, b, coverB, ?_⟩
  rintro rfl
  exact Finset.disjoint_left.mp disjoint inLeft inRight

namespace CExpression

variable {expr : CExpression V} {first : ℕ} {edge other : CEdge V} {side : CBitSet}

theorem rawEdges_input_unique (member : edge ∈ expr.rawEdges first)
    (member' : other ∈ expr.rawEdges first) (input : edge.left = side ∨ edge.right = side)
    (input' : other.left = side ∨ other.right = side) : edge = other := by
  have within : ∀ {e : CEdge V} {part : CExpression V} {start : ℕ}, e ∈ part.rawEdges start →
      e.left = side ∨ e.right = side → side.Nonempty ∧ side ⊂ part.nodeSet start := by
    intro e part start inPart isInput
    obtain ⟨nonemptyLeft, nonemptyRight, disjoint⟩ := rawEdges_sides inPart
    have inside := rawEdges_inside inPart
    have left := Finset.union_subset_left inside
    have right := Finset.union_subset_right inside
    rcases isInput with rfl | rfl
    · exact ⟨nonemptyLeft, left, fun whole =>
        nonemptyRight.ne_empty (disjoint.symm.eq_bot_of_le (right.trans whole))⟩
    · exact ⟨nonemptyRight, right, fun whole =>
        nonemptyLeft.ne_empty (disjoint.eq_bot_of_le (left.trans whole))⟩
  induction expr generalizing first with
  | atom a => simp [rawEdges] at member
  | join op l r predicate notin ihl ihr =>
    have disjoint := nodeSet_disjoint l r first
    have apart : ¬ (side.Nonempty ∧ side ⊆ l.nodeSet first ∧
        side ⊆ r.nodeSet (first + l.atomList.length)) := by
      rintro ⟨nonempty, inLeft, inRight⟩
      exact nonempty.ne_empty ((disjoint.mono_left inLeft).eq_bot_of_le inRight)
    -- the inputs of the join itself are the whole sides
    have top : ∀ {e : CEdge V}, e ∈ l.rawEdges first ∨
        e ∈ r.rawEdges (first + l.atomList.length) → e.left = side ∨ e.right = side →
        ¬ (l.nodeSet first = side ∨ r.nodeSet (first + l.atomList.length) = side) := by
      rintro e (inLeft | inRight) isInput (rfl | rfl)
      · exact (within inLeft isInput).2.ne rfl
      · exact apart ⟨(within inLeft isInput).1, (within inLeft isInput).2.subset,
          Finset.Subset.refl _⟩
      · exact apart ⟨(within inRight isInput).1, Finset.Subset.refl _,
          (within inRight isInput).2.subset⟩
      · exact (within inRight isInput).2.ne rfl
    simp only [rawEdges, List.mem_append, List.mem_singleton] at member member'
    rcases member with (left | right) | rfl <;> rcases member' with (left' | right') | rfl
    · exact ihl left left'
    · exact absurd ⟨(within left input).1, (within left input).2.subset,
        (within right' input').2.subset⟩ apart
    · exact absurd input' (top (.inl left) input)
    · exact absurd ⟨(within right input).1, (within left' input').2.subset,
        (within right input).2.subset⟩ apart
    · exact ihr right right'
    · exact absurd input' (top (.inr right) input)
    · exact absurd input (top (.inl left') input')
    · exact absurd input (top (.inr right') input')
    · rfl

theorem rawEdges_all_unique (member : edge ∈ expr.rawEdges first)
    (member' : other ∈ expr.rawEdges first) (same : edge.all = other.all) : edge = other := by
  induction expr generalizing first with
  | atom a => simp [rawEdges] at member
  | join op l r predicate notin ihl ihr =>
    have disjoint := nodeSet_disjoint l r first
    have nonempty : ∀ {e : CEdge V} {part : CExpression V} {start : ℕ},
        e ∈ part.rawEdges start → e.all ≠ ∅ := fun inPart =>
      ((rawEdges_sides inPart).1.mono Finset.subset_union_left).ne_empty
    have split : ∀ {e f : CEdge V}, e ∈ l.rawEdges first →
        f ∈ r.rawEdges (first + l.atomList.length) → e.all ≠ f.all := by
      intro e f inLeft inRight equal
      have onRight : e.all ⊆ r.nodeSet (first + l.atomList.length) := equal ▸ rawEdges_inside inRight
      exact nonempty inLeft ((disjoint.mono_left (rawEdges_inside inLeft)).eq_bot_of_le onRight)
    have whole : ∀ {e : CEdge V}, e ∈ l.rawEdges first ∨
        e ∈ r.rawEdges (first + l.atomList.length) →
        e.all ≠ l.nodeSet first ∪ r.nodeSet (first + l.atomList.length) := by
      rintro e (inLeft | inRight) equal
      · have inside : e.all ⊆ l.nodeSet first := rawEdges_inside inLeft
        rw [equal] at inside
        exact (r.nodeSet_nonempty _).ne_empty
          (disjoint.symm.eq_bot_of_le (Finset.union_subset_right inside))
      · have inside : e.all ⊆ r.nodeSet (first + l.atomList.length) := rawEdges_inside inRight
        rw [equal] at inside
        exact (l.nodeSet_nonempty first).ne_empty
          (disjoint.eq_bot_of_le (Finset.union_subset_left inside))
    simp only [rawEdges, List.mem_append, List.mem_singleton] at member member'
    rcases member with (left | right) | rfl <;> rcases member' with (left' | right') | rfl
    · exact ihl left left'
    · exact absurd same (split left right')
    · exact absurd same (whole (.inl left))
    · exact absurd same.symm (split left' right)
    · exact ihr right right'
    · exact absurd same (whole (.inr right))
    · exact absurd same.symm (whole (.inl left'))
    · exact absurd same.symm (whole (.inr right'))
    · rfl

end CExpression

/-- The extraction takes the original join `edge`, or one with the same inputs and conjuncts. -/
def Extraction.Takes (memo : CMemo V) (edge : CEdge V) : Extraction V → Prop
  | component _ => False
  | join expr l r => (memo.groups.lookup edge.left = some expr.leftGroup ∧
      memo.groups.lookup edge.right = some expr.rightGroup ∧ expr.predicate = edge.predicate) ∨
      l.Takes memo edge ∨ r.Takes memo edge

namespace EnumeratedRegion

variable (region : EnumeratedRegion V) {edge other : CEdge V} {side : CBitSet}

theorem core_eq_of_all (member : edge ∈ region.spec.edges) (member' : other ∈ region.spec.edges)
    (same : edge.all = other.all) : edge.core = other.core := by
  obtain ⟨raw, listed, core⟩ := region.exists_rawEdge member
  obtain ⟨raw', listed', core'⟩ := region.exists_rawEdge member'
  have sides := core
  have sides' := core'
  simp only [CEdge.core, Prod.mk.injEq] at sides sides'
  rw [CEdge.all, CEdge.all, ← sides.1, ← sides.2.1, ← sides'.1, ← sides'.2.1] at same
  rw [← core, ← core', CExpression.rawEdges_all_unique listed listed' same]

theorem core_eq_of_input (member : edge ∈ region.spec.edges) (member' : other ∈ region.spec.edges)
    (input : edge.left = side ∨ edge.right = side) (input' : other.left = side ∨ other.right = side) :
    edge.core = other.core := by
  obtain ⟨raw, listed, core⟩ := region.exists_rawEdge member
  obtain ⟨raw', listed', core'⟩ := region.exists_rawEdge member'
  have sides := core
  have sides' := core'
  simp only [CEdge.core, Prod.mk.injEq] at sides sides'
  rw [← sides.1, ← sides.2.1] at input
  rw [← sides'.1, ← sides'.2.1] at input'
  rw [← core, ← core', CExpression.rawEdges_input_unique listed listed' input input']

theorem edge_inside (member : edge ∈ region.spec.edges) :
    edge.all ⊆ Finset.range region.spec.nodeCount := by
  obtain ⟨raw, listed, core⟩ := region.exists_rawEdge member
  simp only [CEdge.core, Prod.mk.injEq] at core
  have inside : raw.all ⊆ region.root.nodeSet 0 := CExpression.rawEdges_inside listed
  rwa [CEdge.all, core.1, core.2.1, region.nodeSet_eq] at inside

theorem edge_large (member : edge ∈ region.spec.edges) : 2 ≤ edge.all.card := by
  obtain ⟨raw, listed, core⟩ := region.exists_rawEdge member
  simp only [CEdge.core, Prod.mk.injEq] at core
  have disjoint := region.edge_disjoint member
  obtain ⟨nonemptyLeft, nonemptyRight, -⟩ := CExpression.rawEdges_sides listed
  rw [core.1] at nonemptyLeft
  rw [core.2.1] at nonemptyRight
  exact card_union_ge_two nonemptyLeft nonemptyRight disjoint

theorem not_formable (member : edge ∈ region.spec.edges)
    (lacks : ¬ DependencyOrder.Closed region.spec.providers edge.all) :
    ¬ Formable region.spec edge.all := by
  rintro (single | closed)
  · have large := region.edge_large member
    omega
  · exact lacks closed

end EnumeratedRegion

section Kept
variable {region : EnumeratedRegion V} {memo : CMemo V} {conjunct : CConjunct V}
  {nodes : CBitSet} {edge child parent : CEdge V} {extraction : Extraction V} {group : ℕ}

theorem Extraction.Takes.enforces (takes : extraction.Takes memo edge)
    (member : conjunct ∈ edge.predicate.conjuncts) : extraction.Enforces conjunct := by
  induction extraction with
  | component node => exact absurd takes id
  | join expr l r ihl ihr =>
    rcases takes with ⟨-, -, same⟩ | left | right
    · exact .inl (same ▸ member)
    · exact .inr (.inl (ihl left))
    · exact .inr (.inr (ihr right))

variable (consistent : memo.Consistent region.spec)

include consistent

theorem Extraction.From.enforces_or_takes (member : conjunct ∈ region.spec.conjuncts)
    (large : 2 ≤ (conjunct.cover region.spec.atoms).card)
    (taken : extraction.From memo region.spec.nodeCount group)
    (found : memo.groups.lookup nodes = some group)
    (inside : conjunct.cover region.spec.atoms ⊆ nodes) :
    extraction.Enforces conjunct ∨ ∃ edge ∈ region.spec.edges,
      Crosses edge.left edge.right (conjunct.cover region.spec.atoms) ∧
        extraction.Takes memo edge := by
  induction extraction generalizing group nodes with
  | component node =>
    obtain ⟨rfl, bound⟩ := taken
    rw [consistent.injective found (consistent.component _ bound)] at inside
    have size := Finset.card_le_card inside
    rw [Finset.card_singleton] at size
    omega
  | join expr l r ihl ihr =>
    obtain ⟨alternative, takenLeft, takenRight⟩ := taken
    obtain ⟨left, right, joined, foundLeft, foundRight, -, placed⟩ := consistent.placed alternative
    rw [consistent.injective found joined] at inside
    by_cases crosses : Crosses left right (conjunct.cover region.spec.atoms)
    · rcases placed with ⟨edge, listed, rfl, rfl, same⟩ | ⟨-, same⟩
      · exact .inr ⟨edge, listed, crosses, .inl ⟨foundLeft, foundRight, same⟩⟩
      · refine .inl (.inl ?_)
        rw [same]
        exact mem_planPredicate.mpr ⟨member, .inl crosses⟩
    rcases subset_side_of_not_crosses inside crosses with inLeft | inRight
    · rcases ihl takenLeft foundLeft inLeft with enforced | ⟨edge, listed, meets, takes⟩
      · exact .inl (.inr (.inl enforced))
      · exact .inr ⟨edge, listed, meets, .inr (.inl takes)⟩
    · rcases ihr takenRight foundRight inRight with enforced | ⟨edge, listed, meets, takes⟩
      · exact .inl (.inr (.inr enforced))
      · exact .inr ⟨edge, listed, meets, .inr (.inr takes)⟩

theorem Extraction.From.root_enforces_or_takes (member : conjunct ∈ region.spec.conjuncts)
    (small : (conjunct.cover region.spec.atoms).card < 2) (several : 2 ≤ region.spec.nodeCount)
    (taken : extraction.From memo region.spec.nodeCount group)
    (found : memo.groups.lookup (Finset.range region.spec.nodeCount) = some group) :
    extraction.Enforces conjunct ∨ ∃ edge ∈ region.spec.edges,
      (edge.left ∪ edge.right).card = region.spec.nodeCount ∧ extraction.Takes memo edge := by
  cases extraction with
  | component node =>
    obtain ⟨rfl, bound⟩ := taken
    have size := congrArg Finset.card
      (consistent.injective found (consistent.component _ bound))
    rw [Finset.card_range, Finset.card_singleton] at size
    omega
  | join expr l r =>
    obtain ⟨left, right, joined, foundLeft, foundRight, -, placed⟩ := consistent.placed taken.1
    have full : (left ∪ right).card = region.spec.nodeCount := by
      rw [← consistent.injective found joined, Finset.card_range]
    rcases placed with ⟨edge, listed, rfl, rfl, same⟩ | ⟨-, same⟩
    · exact .inr ⟨edge, listed, full, .inl ⟨foundLeft, foundRight, same⟩⟩
    · refine .inl (.inl ?_)
      rw [same]
      exact mem_planPredicate.mpr ⟨member, .inr ⟨full, small⟩⟩

theorem Extraction.From.takes_of_lacks (listed : child ∈ region.spec.edges)
    (lacks : ¬ DependencyOrder.Closed region.spec.providers child.all)
    (taken : extraction.From memo region.spec.nodeCount group)
    (found : memo.groups.lookup child.all = some group) : extraction.Takes memo child := by
  cases extraction with
  | component node =>
    obtain ⟨rfl, bound⟩ := taken
    have large := region.edge_large listed
    rw [consistent.injective found (consistent.component _ bound), Finset.card_singleton] at large
    omega
  | join expr l r =>
    obtain ⟨left, right, joined, foundLeft, foundRight, -, placed⟩ := consistent.placed taken.1
    have whole := consistent.injective found joined
    rcases placed with ⟨edge, inSpec, rfl, rfl, same⟩ | ⟨planned, -⟩
    · have core := region.core_eq_of_all listed inSpec whole
      simp only [CEdge.core, Prod.mk.injEq] at core
      rw [Takes, core.1, core.2.1, core.2.2]
      exact .inl ⟨foundLeft, foundRight, same⟩
    · exact absurd (whole ▸ planned.formableBoth) (region.not_formable listed lacks)

theorem Extraction.From.takes_child (stuck : Inseparable region.spec child parent)
    (taken : extraction.From memo region.spec.nodeCount group)
    (takes : extraction.Takes memo parent) : extraction.Takes memo child := by
  induction extraction generalizing group with
  | component node => exact absurd takes id
  | join expr l r ihl ihr =>
    obtain ⟨-, takenLeft, takenRight⟩ := taken
    rcases takes with ⟨foundLeft, foundRight, -⟩ | left | right
    · rcases stuck.input with input | input
      · rw [input] at foundLeft
        exact .inr (.inl (takenLeft.takes_of_lacks consistent stuck.child_mem stuck.lacks foundLeft))
      · rw [input] at foundRight
        exact .inr (.inr (takenRight.takes_of_lacks consistent stuck.child_mem stuck.lacks
          foundRight))
    · exact .inr (.inl (ihl takenLeft left))
    · exact .inr (.inr (ihr takenRight right))

theorem Extraction.From.takes_parent (stuck : Inseparable region.spec child parent)
    (taken : extraction.From memo region.spec.nodeCount group)
    (found : memo.groups.lookup nodes = some group) (takes : extraction.Takes memo child) :
    nodes = child.all ∨ extraction.Takes memo parent := by
  induction extraction generalizing group nodes with
  | component node => exact absurd takes id
  | join expr l r ihl ihr =>
    obtain ⟨alternative, takenLeft, takenRight⟩ := taken
    obtain ⟨left, right, joined, foundLeft, foundRight, -, placed⟩ := consistent.placed alternative
    -- an input that no plan forms is one of an original join, and `parent` is the only one
    have above : left = child.all ∨ right = child.all →
        (Extraction.join expr l r).Takes memo parent := by
      intro input
      rcases placed with ⟨edge, inSpec, rfl, rfl, same⟩ | ⟨planned, -⟩
      · have core := region.core_eq_of_input inSpec stuck.parent_mem input stuck.input
        simp only [CEdge.core, Prod.mk.injEq] at core
        rw [Takes, ← core.1, ← core.2.1, ← core.2.2]
        exact .inl ⟨foundLeft, foundRight, same⟩
      · rcases input with rfl | rfl
        · exact absurd planned.formableLeft (region.not_formable stuck.child_mem stuck.lacks)
        · exact absurd planned.formableRight (region.not_formable stuck.child_mem stuck.lacks)
    rcases takes with ⟨here, there, -⟩ | inLeft | inRight
    · left
      rw [consistent.injective found joined, CEdge.all, consistent.injective foundLeft here,
        consistent.injective foundRight there]
    · rcases ihl takenLeft foundLeft inLeft with input | takes
      · exact .inr (above (.inl input))
      · exact .inr (.inr (.inl takes))
    · rcases ihr takenRight foundRight inRight with input | takes
      · exact .inr (above (.inr input))
      · exact .inr (.inr (.inr takes))

theorem Extraction.From.takes_iff_of_tied (tied : Tied region.spec edge parent)
    (taken : extraction.From memo region.spec.nodeCount group)
    (found : memo.groups.lookup (Finset.range region.spec.nodeCount) = some group) :
    extraction.Takes memo edge ↔ extraction.Takes memo parent := by
  induction tied with
  | rel child parent stuck =>
    constructor
    · intro takes
      rcases taken.takes_parent consistent stuck found takes with whole | above
      · exact absurd (whole ▸ region.closed_range) stuck.lacks
      · exact above
    · exact taken.takes_child consistent stuck
  | refl edge => rfl
  | symm _ _ _ ih => exact ih.symm
  | trans _ _ _ _ _ ih ih' => exact ih.trans ih'

end Kept

section Losing
variable {memo : CMemo V} {nodeCount : ℕ} {conjunct : CConjunct V} {left right : CBitSet}
  {predicate : CPredicate V}

/-- The group of `nodes` has an extraction that does not enforce the conjunct. -/
def Loses (memo : CMemo V) (nodeCount : ℕ) (conjunct : CConjunct V) (nodes : CBitSet) : Prop :=
  ∃ group extraction, memo.groups.lookup nodes = some group ∧
    Extraction.From memo nodeCount extraction group ∧ ¬ extraction.Enforces conjunct

theorem Loses.of_offers (offers : memo.Offers left right predicate)
    (missing : conjunct ∉ predicate.conjuncts) (losesLeft : Loses memo nodeCount conjunct left)
    (losesRight : Loses memo nodeCount conjunct right) :
    Loses memo nodeCount conjunct (left ∪ right) := by
  obtain ⟨group, a, b, joined, foundA, foundB, member⟩ := offers
  obtain ⟨groupLeft, fromLeft, foundLeft, takenLeft, lostLeft⟩ := losesLeft
  obtain ⟨groupRight, fromRight, foundRight, takenRight, lostRight⟩ := losesRight
  obtain rfl : a = groupLeft := Option.some.inj (foundA.symm.trans foundLeft)
  obtain rfl : b = groupRight := Option.some.inj (foundB.symm.trans foundRight)
  refine ⟨group, .join _ fromLeft fromRight, joined, ⟨member, takenLeft, takenRight⟩, ?_⟩
  rintro (here | inLeft | inRight)
  · exact missing here
  · exact lostLeft inLeft
  · exact lostRight inRight

theorem Loses.join (offers : memo.Offers left right predicate ∨ memo.Offers right left predicate)
    (missing : conjunct ∉ predicate.conjuncts) (losesLeft : Loses memo nodeCount conjunct left)
    (losesRight : Loses memo nodeCount conjunct right) :
    Loses memo nodeCount conjunct (left ∪ right) := by
  rcases offers with straight | reversed
  · exact .of_offers straight missing losesLeft losesRight
  · rw [Finset.union_comm]
    exact .of_offers reversed missing losesRight losesLeft

end Losing

namespace PureInnerRegion

variable (region : PureInnerRegion V) {conjunct : CConjunct V} {pairs : List SPair}

/-- A plan that `FEnumerateRegion` may materialise for the region. Regions that read columns from
outside are not enumerated. -/
structure Plans (plan : CDPHyperPlan) : Prop where
  recorded : plan.Recorded region.spec.nodeCount region.Accepts
  complete : plan.complete region.spec.nodeCount = true
  inside : region.spec.externalDependencies = false

theorem several : 2 ≤ region.spec.nodeCount := by
  have joins := (build_spec region.built region.supported).2.2.2
  rw [region.nodeCount_eq, CExpression.atomList_length]
  omega

theorem enforces_of_atHome (home : AtHome region.spec)
    (ordered : Topological region.spec.nodeCount region.Accepts (pairs.map SPair.cut))
    {extraction : Extraction V}
    (taken : extraction.From (materialize region.spec pairs) region.spec.nodeCount (rootGroup
      region.spec)) (member : conjunct ∈ region.spec.conjuncts) : extraction.Enforces conjunct := by
  have holds := region.materialize_holds ordered
  have found := holds.extension.groups region.rootGroup_lookup
  have carried : ∀ edge ∈ region.spec.edges, Home region.spec conjunct edge →
      extraction.Takes (materialize region.spec pairs) edge → extraction.Enforces conjunct := by
    intro edge listed isHome takes
    obtain ⟨carrier, tied, carries⟩ := home edge listed conjunct member isHome
    exact ((taken.takes_iff_of_tied holds.consistent tied found).mp takes).enforces carries
  by_cases small : (conjunct.cover region.spec.atoms).card < 2
  · rcases taken.root_enforces_or_takes holds.consistent member small region.several found with
      enforced | ⟨edge, listed, full, takes⟩
    · exact enforced
    · exact carried edge listed (.inr ⟨small, full⟩) takes
  · rcases taken.enforces_or_takes holds.consistent member (Nat.le_of_not_lt small) found
      (cover_subset region.spec conjunct) with enforced | ⟨edge, listed, crosses, takes⟩
    · exact enforced
    · exact carried edge listed (.inl crosses) takes

/-- All conjuncts but those that read `nodes` alone: no join within `nodes` that a plan makes
carries the conjunct. -/
def Away (nodes : CBitSet) (conjunct : CConjunct V) : Prop :=
  ¬ conjunct.cover region.spec.atoms ⊆ nodes ∨
    ((conjunct.cover region.spec.atoms).card < 2 ∧ nodes.card < region.spec.nodeCount)

variable {region} {nodes start : CBitSet}

theorem Away.mono {fewer : CBitSet} (away : region.Away nodes conjunct) (sub : fewer ⊆ nodes) :
    region.Away fewer conjunct := by
  rcases away with outside | ⟨small, part⟩
  · exact .inl fun inside => outside (inside.trans sub)
  · exact .inr ⟨small, (Finset.card_le_card sub).trans_lt part⟩

theorem Away.not_placed (away : region.Away nodes conjunct) {left right : CBitSet}
    (disjoint : Disjoint left right) (sub : left ∪ right ⊆ nodes)
    (inside : nodes ⊆ Finset.range region.spec.nodeCount) :
    conjunct ∉ (planPredicate region.spec left right).conjuncts := by
  intro placed
  obtain ⟨-, crosses | ⟨full, small⟩⟩ := mem_planPredicate.mp placed
  · rcases away with outside | ⟨small, -⟩
    · exact outside (crosses.1.trans sub)
    · have large := crosses_card disjoint crosses
      omega
  · have size := Finset.card_le_card sub
    rcases away with outside | ⟨-, part⟩
    · have whole : nodes = Finset.range region.spec.nodeCount :=
        Finset.eq_of_subset_of_card_le inside (by rw [Finset.card_range]; omega)
      exact outside (whole ▸ cover_subset region.spec conjunct)
    · omega

theorem away_of_disjoint {other : CBitSet} (large : 2 ≤ (conjunct.cover region.spec.atoms).card)
    (covered : conjunct.cover region.spec.atoms ⊆ other) (disjoint : Disjoint nodes other) :
    region.Away nodes conjunct := by
  refine .inl fun inside => ?_
  obtain ⟨node, member⟩ := Finset.card_pos.mp (Nat.lt_of_lt_of_le Nat.zero_lt_two large)
  exact Finset.disjoint_left.mp disjoint (inside member) (covered member)

theorem not_placed_above (large : 2 ≤ (conjunct.cover region.spec.atoms).card) {left : CBitSet}
    {next : ℕ} (disjoint : Disjoint left {next}) (sub : conjunct.cover region.spec.atoms ⊆ left) :
    conjunct ∉ (planPredicate region.spec left {next}).conjuncts := by
  intro placed
  obtain ⟨-, ⟨-, -, meets⟩ | ⟨-, small⟩⟩ := mem_planPredicate.mp placed
  · exact meets (Finset.disjoint_of_subset_right sub disjoint.symm)
  · omega

/-- The subtree `part` of the query, whose inputs are counted from `first`. -/
def Original (region : PureInnerRegion V) (part : CExpression V) (first : ℕ) : Prop :=
  part.rawEdges first ⊆ region.root.rawEdges 0

def TiedSet (region : PureInnerRegion V) (home : CEdge V) (nodes : CBitSet) : Prop :=
  ∃ edge ∈ region.spec.edges, edge.all = nodes ∧ Tied region.spec home edge

/-- The sets that a plan forms or that an original join tied to `home` forms. -/
def Reached (region : PureInnerRegion V) (home : CEdge V) (nodes : CBitSet) : Prop :=
  DependencyOrder.Closed region.spec.providers nodes ∨ (∃ node, nodes = {node}) ∨
    region.TiedSet home nodes

section Subtrees
variable {home : CEdge V} {op : EOperatorId} {l r : CExpression V} {predicate : CPredicate V}
  {notin : Option (CPredicate V)} {first : ℕ}

theorem Original.leftPart (original : region.Original (.join op l r predicate notin) first) :
    region.Original l first := fun _ member =>
  original (List.mem_append_left _ (List.mem_append_left _ member))

theorem Original.rightPart (original : region.Original (.join op l r predicate notin) first) :
    region.Original r (first + l.atomList.length) := fun _ member =>
  original (List.mem_append_left _ (List.mem_append_right _ member))

theorem Original.edge (original : region.Original (.join op l r predicate notin) first) :
    ∃ edge ∈ region.spec.edges, edge.left = l.nodeSet first ∧
      edge.right = r.nodeSet (first + l.atomList.length) ∧ edge.predicate = predicate := by
  obtain ⟨edge, member, core⟩ := region.exists_edge
    (original (List.mem_append_right _ (List.mem_singleton_self _)))
  simp only [CEdge.core, Prod.mk.injEq] at core
  exact ⟨edge, member, core⟩

theorem TiedSet.edge (original : region.Original (.join op l r predicate notin) first)
    (tied : region.TiedSet home ((CExpression.join op l r predicate notin).nodeSet first)) :
    ∃ edge ∈ region.spec.edges, Tied region.spec home edge ∧ edge.left = l.nodeSet first ∧
      edge.right = r.nodeSet (first + l.atomList.length) ∧ edge.predicate = predicate := by
  obtain ⟨edge, member, whole, tiedEdge⟩ := tied
  obtain ⟨same, member', sides⟩ := original.edge
  have equal := region.core_eq_of_all member member' (by
    rw [whole, CExpression.nodeSet_join, CEdge.all, sides.1, sides.2.1])
  simp only [CEdge.core, Prod.mk.injEq] at equal
  exact ⟨edge, member, tiedEdge, equal.1.trans sides.1, equal.2.1.trans sides.2.1,
    equal.2.2.trans sides.2.2⟩

theorem Reached.of_input {edge : CEdge V} {part : CExpression V} (member : edge ∈ region.spec.edges)
    (tied : Tied region.spec home edge) (original : region.Original part first)
    (input : edge.left = part.nodeSet first ∨ edge.right = part.nodeSet first) :
    region.Reached home (part.nodeSet first) := by
  by_cases closed : DependencyOrder.Closed region.spec.providers (part.nodeSet first)
  · exact .inl closed
  cases part with
  | atom a => exact .inr (.inl ⟨first, by simp [CExpression.nodeSet, CExpression.atomList]⟩)
  | join op l r predicate notin =>
    obtain ⟨child, childMember, sides⟩ := original.edge
    have whole : child.all = (CExpression.join op l r predicate notin).nodeSet first := by
      rw [CExpression.nodeSet_join, CEdge.all, sides.1, sides.2.1]
    rw [← whole] at closed input ⊢
    have inseparable : Inseparable region.spec child edge := ⟨childMember, member, input, closed⟩
    exact .inr (.inr ⟨child, childMember, rfl,
      tied.trans _ _ _ ((Relation.EqvGen.rel _ _ inseparable).symm _ _)⟩)

theorem TiedSet.sides (original : region.Original (.join op l r predicate notin) first)
    (tied : region.TiedSet home ((CExpression.join op l r predicate notin).nodeSet first)) :
    region.Reached home (l.nodeSet first) ∧
      region.Reached home (r.nodeSet (first + l.atomList.length)) := by
  obtain ⟨edge, member, tiedEdge, isLeft, isRight, -⟩ := tied.edge original
  exact ⟨.of_input member tiedEdge original.leftPart (.inl isLeft),
    .of_input member tiedEdge original.rightPart (.inr isRight)⟩

theorem TiedSet.above (original : region.Original (.join op l r predicate notin) first)
    (tied : region.TiedSet home nodes) (lacks : ¬ DependencyOrder.Closed region.spec.providers nodes)
    (input : nodes = l.nodeSet first ∨ nodes = r.nodeSet (first + l.atomList.length)) :
    region.TiedSet home ((CExpression.join op l r predicate notin).nodeSet first) := by
  obtain ⟨child, childMember, rfl, tiedChild⟩ := tied
  obtain ⟨edge, member, isLeft, isRight, -⟩ := original.edge
  have inseparable : Inseparable region.spec child edge := by
    refine ⟨childMember, member, ?_, lacks⟩
    rwa [isLeft, isRight, eq_comm, @eq_comm _ (r.nodeSet _)]
  refine ⟨edge, member, ?_, tiedChild.trans _ _ _ (Relation.EqvGen.rel _ _ inseparable)⟩
  rw [CExpression.nodeSet_join, CEdge.all, isLeft, isRight]

end Subtrees

section Avoiding
variable {memo : CMemo V} (holds : region.Holds pairs memo)
  (ordered : Topological region.spec.nodeCount region.Accepts (pairs.map SPair.cut))

include holds

theorem loses_single {node : ℕ} (bound : node < region.spec.nodeCount) :
    Loses memo region.spec.nodeCount conjunct {node} :=
  ⟨node, .component node, holds.consistent.component node bound, ⟨rfl, bound⟩, id⟩

include ordered

theorem loses_climb (climbs : Climbs (pairs.map SPair.cut) start nodes)
    (inside : nodes ⊆ Finset.range region.spec.nodeCount)
    (quiet : ∀ left next, start ⊆ left → Disjoint left {next} → left ∪ {next} ⊆ nodes →
      conjunct ∉ (planPredicate region.spec left {next}).conjuncts)
    (loses : Loses memo region.spec.nodeCount conjunct start) :
    Loses memo region.spec.nodeCount conjunct nodes := by
  have both : Loses memo region.spec.nodeCount conjunct nodes ∧ start ⊆ nodes := by
    induction climbs with
    | here => exact ⟨loses, Finset.Subset.refl _⟩
    | @next earlier next _ listed ih =>
      rw [Finset.insert_eq, Finset.union_comm] at inside quiet ⊢
      obtain ⟨pair, member, cut⟩ := List.mem_map.mp listed
      obtain ⟨isLeft, isRight⟩ := Prod.mk.inj cut
      have disjoint := (ordered.disjoint_accepts listed).1
      have within : earlier ⊆ earlier ∪ {next} := Finset.subset_union_left
      obtain ⟨before, sub⟩ := ih (within.trans inside) fun left other from_ apart joined =>
        quiet left other from_ apart (joined.trans within)
      have offers := holds.offers pair member
      rw [isLeft, isRight] at offers
      refine ⟨.join offers (quiet earlier next sub disjoint (Finset.Subset.refl _)) before ?_,
        sub.trans within⟩
      exact loses_single holds (Finset.mem_range.mp
        (inside (Finset.mem_union_right _ (Finset.mem_singleton_self next))))
  exact both.1

variable (reaches : ∀ nodes : CBitSet, nodes.Nonempty →
    nodes ⊆ Finset.range region.spec.nodeCount →
    DependencyOrder.Closed region.spec.providers nodes →
    (∃ first ∈ nodes, Climbs (pairs.map SPair.cut) {first} nodes) ∧
      Climbs (pairs.map SPair.cut) nodes (Finset.range region.spec.nodeCount))

include reaches

theorem loses_closed (nonempty : nodes.Nonempty)
    (inside : nodes ⊆ Finset.range region.spec.nodeCount)
    (closed : DependencyOrder.Closed region.spec.providers nodes)
    (away : region.Away nodes conjunct) : Loses memo region.spec.nodeCount conjunct nodes := by
  obtain ⟨⟨first, member, climbs⟩, -⟩ := reaches nodes nonempty inside closed
  refine loses_climb holds ordered climbs inside (fun left next _ disjoint sub =>
    away.not_placed disjoint sub inside) ?_
  exact loses_single holds (Finset.mem_range.mp (inside member))

theorem loses_whole (nonempty : nodes.Nonempty)
    (inside : nodes ⊆ Finset.range region.spec.nodeCount)
    (closed : DependencyOrder.Closed region.spec.providers nodes)
    (large : 2 ≤ (conjunct.cover region.spec.atoms).card)
    (covered : conjunct.cover region.spec.atoms ⊆ nodes)
    (loses : Loses memo region.spec.nodeCount conjunct nodes) :
    Loses memo region.spec.nodeCount conjunct (Finset.range region.spec.nodeCount) := by
  obtain ⟨-, climbs⟩ := reaches nodes nonempty inside closed
  exact loses_climb holds ordered climbs (Finset.Subset.refl _) (fun left next sub disjoint _ =>
    not_placed_above large disjoint (covered.trans sub)) loses

variable {home : CEdge V} (uncarried : ∀ carrier, Tied region.spec home carrier →
  conjunct ∉ carrier.predicate.conjuncts)

include uncarried

omit ordered reaches in
theorem loses_tied {op : EOperatorId} {l r : CExpression V} {predicate : CPredicate V}
    {notin : Option (CPredicate V)} {first : ℕ}
    (original : region.Original (.join op l r predicate notin) first)
    (tied : region.TiedSet home ((CExpression.join op l r predicate notin).nodeSet first))
    (losesLeft : Loses memo region.spec.nodeCount conjunct (l.nodeSet first))
    (losesRight : Loses memo region.spec.nodeCount conjunct
      (r.nodeSet (first + l.atomList.length))) :
    Loses memo region.spec.nodeCount conjunct
      ((CExpression.join op l r predicate notin).nodeSet first) := by
  obtain ⟨edge, -, tiedEdge, -, -, same⟩ := tied.edge original
  have offers := (region.seeded.offers _ (original
    (List.mem_append_right _ (List.mem_singleton_self _)))).mono holds.extension
  rw [CExpression.nodeSet_join]
  exact .join (.inl offers) (same ▸ uncarried edge tiedEdge) losesLeft losesRight

theorem loses_aside (part : CExpression V) (first : ℕ) (original : region.Original part first)
    (inside : part.nodeSet first ⊆ Finset.range region.spec.nodeCount)
    (away : region.Away (part.nodeSet first) conjunct)
    (reached : region.Reached home (part.nodeSet first)) :
    Loses memo region.spec.nodeCount conjunct (part.nodeSet first) := by
  induction part generalizing first with
  | atom a =>
    have single : (CExpression.atom a : CExpression V).nodeSet first = {first} := by
      simp [CExpression.nodeSet, CExpression.atomList]
    rw [single] at inside ⊢
    exact loses_single holds (Finset.mem_range.mp (inside (Finset.mem_singleton_self first)))
  | join op l r predicate notin ihl ihr =>
    rcases reached with closed | ⟨node, single⟩ | tied
    · exact loses_closed holds ordered reaches (CExpression.nodeSet_nonempty _ _) inside closed away
    · rw [single] at inside ⊢
      exact loses_single holds (Finset.mem_range.mp (inside (Finset.mem_singleton_self node)))
    · obtain ⟨reachedLeft, reachedRight⟩ := tied.sides original
      have sides := inside
      rw [CExpression.nodeSet_join] at away sides
      refine loses_tied holds uncarried original tied ?_ ?_
      · exact ihl first original.leftPart (Finset.union_subset_left sides)
          (away.mono Finset.subset_union_left) reachedLeft
      · exact ihr _ original.rightPart (Finset.union_subset_right sides)
          (away.mono Finset.subset_union_right) reachedRight

/-- Upwards from the join whose sides the conjunct connects: a plan that forms this set can go on
alone, otherwise the original join above is tied to `home` too. -/
theorem loses_upwards (member : home ∈ region.spec.edges)
    (crosses : Crosses home.left home.right (conjunct.cover region.spec.atoms))
    (part : CExpression V) (first : ℕ) (original : region.Original part first)
    (inside : part.nodeSet first ⊆ Finset.range region.spec.nodeCount)
    (below : ∃ raw ∈ part.rawEdges first, raw.core = home.core) :
    Loses memo region.spec.nodeCount conjunct (Finset.range region.spec.nodeCount) ∨
      (region.TiedSet home (part.nodeSet first) ∧
        conjunct.cover region.spec.atoms ⊆ part.nodeSet first ∧
        Loses memo region.spec.nodeCount conjunct (part.nodeSet first)) := by
  have disjointHome := region.edge_disjoint member
  have large := crosses_card disjointHome crosses
  induction part generalizing first with
  | atom a => simp [CExpression.rawEdges] at below
  | join op l r predicate notin ihl ihr =>
    obtain ⟨raw, listed, core⟩ := below
    have disjoint := CExpression.nodeSet_disjoint l r first
    have sides := inside
    rw [CExpression.nodeSet_join] at sides
    have insideLeft := Finset.union_subset_left sides
    have insideRight := Finset.union_subset_right sides
    have within : ∀ {nodes : CBitSet}, nodes = l.nodeSet first ∨
        nodes = r.nodeSet (first + l.atomList.length) →
        nodes ⊆ (CExpression.join op l r predicate notin).nodeSet first := by
      rw [CExpression.nodeSet_join]
      rintro nodes (rfl | rfl)
      · exact Finset.subset_union_left
      · exact Finset.subset_union_right
    simp only [CExpression.rawEdges, List.mem_append, List.mem_singleton] at listed
    rcases listed with (inLeft | inRight) | rfl
    · rcases ihl first original.leftPart insideLeft ⟨raw, inLeft, core⟩ with
        whole | ⟨tied, covered, loses⟩
      · exact .inl whole
      by_cases closed : DependencyOrder.Closed region.spec.providers (l.nodeSet first)
      · exact .inl (loses_whole holds ordered reaches (l.nodeSet_nonempty first) insideLeft closed
          large covered loses)
      have above := tied.above original closed (.inl rfl)
      refine .inr ⟨above, covered.trans (within (.inl rfl)),
        loses_tied holds uncarried original above loses ?_⟩
      exact loses_aside holds ordered reaches uncarried r _ original.rightPart insideRight
        (away_of_disjoint large covered disjoint.symm) (above.sides original).2
    · rcases ihr _ original.rightPart insideRight ⟨raw, inRight, core⟩ with
        whole | ⟨tied, covered, loses⟩
      · exact .inl whole
      by_cases closed : DependencyOrder.Closed region.spec.providers
          (r.nodeSet (first + l.atomList.length))
      · exact .inl (loses_whole holds ordered reaches (r.nodeSet_nonempty _) insideRight closed
          large covered loses)
      have above := tied.above original closed (.inr rfl)
      refine .inr ⟨above, covered.trans (within (.inr rfl)),
        loses_tied holds uncarried original above ?_ loses⟩
      exact loses_aside holds ordered reaches uncarried l _ original.leftPart insideLeft
        (away_of_disjoint large covered disjoint) (above.sides original).1
    · simp only [CEdge.core, Prod.mk.injEq] at core
      rw [← core.1, ← core.2.1] at crosses
      have tied : region.TiedSet home ((CExpression.join op l r predicate notin).nodeSet first) := by
        refine ⟨home, member, ?_, .refl _⟩
        rw [CExpression.nodeSet_join, CEdge.all, core.1, core.2.1]
      have away : region.Away (l.nodeSet first) conjunct ∧
          region.Away (r.nodeSet (first + l.atomList.length)) conjunct := by
        constructor
        · exact .inl fun covered => crosses.2.2 (disjoint.symm.mono_right covered)
        · exact .inl fun covered => crosses.2.1 (disjoint.mono_right covered)
      refine .inr ⟨tied, ?_, loses_tied holds uncarried original tied ?_ ?_⟩
      · rw [CExpression.nodeSet_join]
        exact crosses.1
      · exact loses_aside holds ordered reaches uncarried l _ original.leftPart insideLeft away.1
          (tied.sides original).1
      · exact loses_aside holds ordered reaches uncarried r _ original.rightPart insideRight away.2
          (tied.sides original).2

theorem loses_root (member : home ∈ region.spec.edges) (isHome : Home region.spec conjunct home) :
    Loses memo region.spec.nodeCount conjunct (Finset.range region.spec.nodeCount) := by
  have whole := region.nodeSet_eq
  have original : region.Original region.root 0 := fun _ listed => listed
  rcases isHome with crosses | ⟨small, full⟩
  · rcases loses_upwards holds ordered reaches uncarried member crosses region.root 0 original
      whole.subset (region.exists_rawEdge member) with loses | ⟨-, -, loses⟩
    · exact loses
    · exact whole ▸ loses
  -- the root is the only join of all inputs
  have tied : region.TiedSet home (region.root.nodeSet 0) := by
    refine ⟨home, member, ?_, .refl _⟩
    rw [whole]
    exact Finset.eq_of_subset_of_card_le (region.edge_inside member)
      (by rw [Finset.card_range, CEdge.all, full])
  obtain ⟨raw, listed, -⟩ := region.exists_rawEdge member
  rw [← whole]
  have size := congrArg Finset.card whole
  rw [Finset.card_range] at size
  have inside := whole.subset
  generalize region.root = root at *
  cases root with
  | atom a => simp [CExpression.rawEdges] at listed
  | join op l r predicate notin =>
    have positiveLeft := (l.nodeSet_nonempty 0).card_pos
    have positiveRight := (r.nodeSet_nonempty (0 + l.atomList.length)).card_pos
    rw [CExpression.nodeSet_join] at inside
    rw [CExpression.nodeSet_join, Finset.card_union_of_disjoint
      (CExpression.nodeSet_disjoint l r 0)] at size
    refine loses_tied holds uncarried original tied ?_ ?_
    · exact loses_aside holds ordered reaches uncarried l _ original.leftPart
        (Finset.union_subset_left inside) (.inr ⟨small, by omega⟩) (tied.sides original).1
    · exact loses_aside holds ordered reaches uncarried r _ original.rightPart
        (Finset.union_subset_right inside) (.inr ⟨small, by omega⟩) (tied.sides original).2

end Avoiding

theorem exists_reaches (region : PureInnerRegion V)
    (straight : ¬ DependencyOrder.Circular region.spec.providers
      (Finset.range region.spec.nodeCount)) :
    ∃ pairs : List SPair,
      Topological region.spec.nodeCount region.Accepts (pairs.map SPair.cut) ∧
      ∀ nodes : CBitSet, nodes.Nonempty → nodes ⊆ Finset.range region.spec.nodeCount →
        DependencyOrder.Closed region.spec.providers nodes →
        (∃ first ∈ nodes, Climbs (pairs.map SPair.cut) {first} nodes) ∧
          Climbs (pairs.map SPair.cut) nodes (Finset.range region.spec.nodeCount) := by
  classical
  let sets := (Finset.range region.spec.nodeCount).powerset.toList.filter fun nodes =>
    decide (nodes.Nonempty ∧ DependencyOrder.Closed region.spec.providers nodes)
  have listed : ∀ nodes, nodes ∈ sets ↔ nodes ⊆ Finset.range region.spec.nodeCount ∧
      nodes.Nonempty ∧ DependencyOrder.Closed region.spec.providers nodes := by
    simp [sets]
  obtain ⟨cuts, ordered, climbs⟩ := region.exists_climbs region.pureInner straight sets
    fun nodes member => by
      obtain ⟨inside, nonempty, closed⟩ := (listed nodes).mp member
      exact ⟨nonempty, inside, closed⟩
  have same : (cuts.map fun cut => (⟨cut.1, cut.2, []⟩ : SPair)).map SPair.cut = cuts := by
    simp [List.map_map, Function.comp_def, SPair.cut]
  refine ⟨cuts.map fun cut => ⟨cut.1, cut.2, []⟩, ?_⟩
  rw [same]
  refine ⟨ordered, fun nodes nonempty inside closed => ?_⟩
  exact climbs nodes ((listed nodes).mpr ⟨inside, nonempty, closed⟩)

end PureInnerRegion

theorem atHome_iff_of_independent {spec : CJoinRegionSpec V}
    (independent : ∀ node, spec.providers node = ∅) :
    AtHome spec ↔ ∀ edge ∈ spec.edges, ∀ conjunct ∈ spec.conjuncts, Home spec conjunct edge →
      conjunct ∈ edge.predicate.conjuncts := by
  have alone : ∀ {edge other}, Tied spec edge other → edge = other := by
    intro edge other tied
    induction tied with
    | rel child parent inseparable =>
      refine absurd ?_ inseparable.lacks
      intro node _
      simp [independent node]
    | refl edge => rfl
    | symm _ _ _ ih => exact ih.symm
    | trans _ _ _ _ _ ih ih' => exact ih.trans ih'
  constructor
  · intro home edge member conjunct listed isHome
    obtain ⟨carrier, tied, carries⟩ := home edge member conjunct listed isHome
    exact alone tied ▸ carries
  · intro own edge member conjunct listed isHome
    exact ⟨edge, .refl _, own edge member conjunct listed isHome⟩

def crossThenKeyed : CExpression Unit :=
  .join .innerJoin
    (.join .innerJoin (.atom ⟨{0}, ∅⟩) (.atom ⟨{1}, ∅⟩) ⟨[]⟩ none)
    (.atom ⟨{2}, ∅⟩) ⟨[equality 0 1, equality 1 2]⟩ none

def crossThenKeyedRegion : PureInnerRegion Unit where
  nullRejecting := decideNullRejecting
  root := crossThenKeyed
  spec := (build decideNullRejecting crossThenKeyed).get (by decide)
  built := by simp
  pureInner := by decide
  supported := by decide

def chainPlan : CDPHyperPlan :=
  let plan := CDPHyperPlan.empty none
    (fun left right _ => (fBuildJoinRequest crossThenKeyedRegion.spec left right).isSome)
  let plan := (((plan.foundSingleNode 2).foundSingleNode 1).foundSubgraphPair {1} {2} 1).1
  let plan := ((plan.foundSingleNode 0).foundSubgraphPair {0} {1} 0).1
  ((plan.foundSubgraphPair {0} {1, 2} 0).1.foundSubgraphPair {0, 1} {2} 1).1

theorem chainPlan_plans : crossThenKeyedRegion.Plans chainPlan where
  recorded :=
    (((((((CDPHyperPlan.Recorded.empty _ _).foundSingleNode (by decide)).foundSingleNode
      (by decide)).foundSubgraphPair (by decide) (by decide) (by decide) (by decide)
      ).foundSingleNode (by decide)).foundSubgraphPair (by decide) (by decide) (by decide) (by decide)
      ).foundSubgraphPair (by decide) (by decide) (by decide) (by decide)).foundSubgraphPair
      (by decide) (by decide) (by decide) (by decide)
  complete := by decide
  inside := by decide

end JoinRegion
