import Tuuli.ConjunctPlacement
import Tuuli.EdgeConsumption

/-!
`CDPHyperJoinRegion` over inner joins: its inputs, the conjuncts it places and the
original joins. A conjunct over several inputs crosses exactly one join of a tree over
them, the lowest one with all of them; every other conjunct is attached to the root.
-/
namespace JoinRegion
open DPHyper hiding CBitSet

variable {V : Type}

/-- The source asserts more than one input. -/
structure CDPHyperJoinRegion (V : Type) where
  components : List CAtom
  conjuncts : List (CConjunct V)
  spec : Option (CJoinRegionSpec V)
  skeletonEdges : List (CBitSet × CBitSet)
  edgeBudget : ℕ
  several : 1 < components.length

namespace CDPHyperJoinRegion

def ofSpec (spec : CJoinRegionSpec V) (edgeBudget : ℕ) (several : 1 < spec.nodeCount) :
    CDPHyperJoinRegion V :=
  ⟨spec.atoms, spec.conjuncts, some spec, spec.edges.map (fun edge => (edge.left, edge.right)),
    edgeBudget, several⟩

variable (region : CDPHyperJoinRegion V)

def nodeCount : ℕ := region.components.length

def pbsPredicateCover (conjunct : CConjunct V) : CBitSet := conjunct.cover region.components

def pexprPredicate (left right : CBitSet) (includeResidual : Bool) : List (CConjunct V) :=
  pexprCutPredicate region.components region.conjuncts left right includeResidual

theorem cover_inside (conjunct : CConjunct V) :
    region.pbsPredicateCover conjunct ⊆ Finset.range region.nodeCount :=
  Finset.filter_subset _ _

/-- What the joins of the tree get: the residual conjuncts go to a join of all inputs. -/
def attached : JoinTree → List (CConjunct V)
  | .leaf _ => []
  | .join l r => attached l ++ attached r ++ region.pexprPredicate l.nodes r.nodes
      ((l.nodes ∪ r.nodes).card = region.nodeCount)

end CDPHyperJoinRegion

def JoinTree.Distinct : JoinTree → Prop
  | .leaf _ => True
  | .join l r => l.Distinct ∧ r.Distinct ∧ Disjoint l.nodes r.nodes

theorem JoinTree.nodes_card_lt {l r : JoinTree} (disjoint : Disjoint l.nodes r.nodes) :
    l.nodes.card < (l.nodes ∪ r.nodes).card ∧ r.nodes.card < (l.nodes ∪ r.nodes).card := by
  rw [Finset.card_union_of_disjoint disjoint]
  have left := Finset.card_pos.mpr l.nodes_nonempty
  have right := Finset.card_pos.mpr r.nodes_nonempty
  omega

structure TreeOver (nodeCount : ℕ) (nodes : CBitSet) where
  tree : JoinTree
  distinct : tree.Distinct
  nodes_eq : tree.nodes = nodes
  inside : nodes ⊆ Finset.range nodeCount

section Split
variable {α : Type} {p q r : α → Prop} [DecidablePred p] [DecidablePred q] [DecidablePred r]

theorem filter_three (l : Multiset α) (pq : ∀ a ∈ l, p a → ¬ q a) (pr : ∀ a ∈ l, p a → ¬ r a)
    (qr : ∀ a ∈ l, q a → ¬ r a) :
    l.filter p + l.filter q + l.filter r = l.filter (fun a => p a ∨ q a ∨ r a) := by
  have apart : ∀ {s t : α → Prop} [DecidablePred s] [DecidablePred t],
      (∀ a ∈ l, s a → ¬ t a) → l.filter s + l.filter t = l.filter (fun a => s a ∨ t a) := by
    intro s t _ _ exclusive
    have never : l.filter (fun a => s a ∧ t a) = 0 :=
      Multiset.filter_eq_nil.mpr fun a member both => exclusive a member both.1 both.2
    rw [Multiset.filter_add_filter, never, add_zero]
  rw [apart pq, apart]
  · exact Multiset.filter_congr fun a _ => or_assoc
  · rintro a member (left | right)
    · exact pr a member left
    · exact qr a member right

end Split

namespace CDPHyperJoinRegion

variable {region : CDPHyperJoinRegion V}

def Spans (region : CDPHyperJoinRegion V) (nodes : CBitSet) (conjunct : CConjunct V) : Prop :=
  region.pbsPredicateCover conjunct ⊆ nodes ∧ 2 ≤ (region.pbsPredicateCover conjunct).card

instance (region : CDPHyperJoinRegion V) (nodes : CBitSet) :
    DecidablePred (region.Spans nodes) :=
  fun _ => inferInstanceAs (Decidable (_ ∧ _))

section Cut
variable {left right : CBitSet} {conjunct : CConjunct V} (disjoint : Disjoint left right)

include disjoint

theorem spans_union_iff :
    region.Spans (left ∪ right) conjunct ↔ region.Spans left conjunct ∨
      region.Spans right conjunct ∨ Crosses left right (region.pbsPredicateCover conjunct) := by
  constructor
  · rintro ⟨inside, large⟩
    by_cases crosses : Crosses left right (region.pbsPredicateCover conjunct)
    · exact .inr (.inr crosses)
    · rcases subset_side_of_not_crosses inside crosses with inLeft | inRight
      · exact .inl ⟨inLeft, large⟩
      · exact .inr (.inl ⟨inRight, large⟩)
  · rintro (⟨inLeft, large⟩ | ⟨inRight, large⟩ | crosses)
    · exact ⟨inLeft.trans Finset.subset_union_left, large⟩
    · exact ⟨inRight.trans Finset.subset_union_right, large⟩
    · exact ⟨crosses.1, crosses_card disjoint crosses⟩

theorem Spans.not_other (spans : region.Spans left conjunct) : ¬ region.Spans right conjunct := by
  intro other
  have large := spans.2
  simp [(disjoint.mono_left spans.1).eq_bot_of_le other.1] at large

theorem Spans.not_crosses_left (spans : region.Spans left conjunct) :
    ¬ Crosses left right (region.pbsPredicateCover conjunct) :=
  fun crosses => crosses.2.2 (Finset.disjoint_of_subset_right spans.1 disjoint.symm)

theorem Spans.not_crosses_right (spans : region.Spans right conjunct) :
    ¬ Crosses left right (region.pbsPredicateCover conjunct) :=
  fun crosses => crosses.2.1 (Finset.disjoint_of_subset_right spans.1 disjoint)

end Cut

theorem attached_part (region : CDPHyperJoinRegion V) {tree : JoinTree} (distinct : tree.Distinct)
    (part : tree.nodes.card < region.nodeCount) :
    (region.attached tree : Multiset (CConjunct V))
      = (region.conjuncts : Multiset (CConjunct V)).filter (region.Spans tree.nodes) := by
  induction tree with
  | leaf node =>
    rw [attached, Multiset.filter_eq_nil.mpr]
    · rfl
    · rintro conjunct - ⟨inside, large⟩
      have size := Finset.card_le_card inside
      simp only [JoinTree.nodes, Finset.card_singleton] at size
      omega
  | join l r ihl ihr =>
    obtain ⟨distinctLeft, distinctRight, disjoint⟩ := distinct
    obtain ⟨fewerLeft, fewerRight⟩ := JoinTree.nodes_card_lt disjoint
    have notFull : ¬ (l.nodes ∪ r.nodes).card = region.nodeCount := Nat.ne_of_lt part
    have crossing : region.pexprPredicate l.nodes r.nodes
          ((l.nodes ∪ r.nodes).card = region.nodeCount)
        = region.conjuncts.filter
          (fun conjunct => Crosses l.nodes r.nodes (region.pbsPredicateCover conjunct)) := by
      unfold pexprPredicate pexprCutPredicate
      refine List.filter_congr fun conjunct _ => ?_
      rw [decide_eq_decide]
      simp [notFull, pbsPredicateCover]
    rw [attached, crossing, ← Multiset.coe_add, ← Multiset.coe_add,
      ihl distinctLeft (fewerLeft.trans part), ihr distinctRight (fewerRight.trans part),
      ← Multiset.filter_coe, filter_three]
    · exact Multiset.filter_congr fun conjunct _ => (spans_union_iff disjoint).symm
    · exact fun conjunct _ spans => spans.not_other disjoint
    · exact fun conjunct _ spans => spans.not_crosses_left disjoint
    · exact fun conjunct _ spans => spans.not_crosses_right disjoint

theorem attached_full (region : CDPHyperJoinRegion V) {tree : JoinTree} (distinct : tree.Distinct)
    (full : tree.nodes = Finset.range region.nodeCount) :
    (region.attached tree : Multiset (CConjunct V)) = region.conjuncts := by
  have several : 1 < region.nodeCount := region.several
  cases tree with
  | leaf node =>
    have size := congrArg Finset.card full
    simp only [JoinTree.nodes, Finset.card_singleton, Finset.card_range] at size
    omega
  | join l r =>
    obtain ⟨distinctLeft, distinctRight, disjoint⟩ := distinct
    obtain ⟨fewerLeft, fewerRight⟩ := JoinTree.nodes_card_lt disjoint
    have whole : l.nodes ∪ r.nodes = Finset.range region.nodeCount := full
    rw [whole, Finset.card_range] at fewerLeft fewerRight
    have root : region.pexprPredicate l.nodes r.nodes
          ((l.nodes ∪ r.nodes).card = region.nodeCount)
        = region.conjuncts.filter (fun conjunct =>
          Crosses l.nodes r.nodes (region.pbsPredicateCover conjunct) ∨
            (region.pbsPredicateCover conjunct).card < 2) := by
      unfold pexprPredicate pexprCutPredicate
      refine List.filter_congr fun conjunct _ => ?_
      rw [decide_eq_decide]
      simp [whole, pbsPredicateCover]
    have small : ∀ {nodes : CBitSet} {conjunct : CConjunct V}, region.Spans nodes conjunct →
        ¬ (region.pbsPredicateCover conjunct).card < 2 := fun spans => Nat.not_lt.mpr spans.2
    rw [attached, root, ← Multiset.coe_add, ← Multiset.coe_add,
      region.attached_part distinctLeft fewerLeft, region.attached_part distinctRight fewerRight,
      ← Multiset.filter_coe, filter_three]
    · refine Multiset.filter_eq_self.mpr fun conjunct _ => ?_
      by_cases large : 2 ≤ (region.pbsPredicateCover conjunct).card
      · have spans : region.Spans (l.nodes ∪ r.nodes) conjunct :=
          ⟨whole ▸ region.cover_inside conjunct, large⟩
        rcases (spans_union_iff disjoint).mp spans with inLeft | inRight | crosses
        · exact .inl inLeft
        · exact .inr (.inl inRight)
        · exact .inr (.inr (.inl crosses))
      · exact .inr (.inr (.inr (Nat.lt_of_not_le large)))
    · exact fun conjunct _ spans => spans.not_other disjoint
    · rintro conjunct - spans (crosses | few)
      · exact spans.not_crosses_left disjoint crosses
      · exact small spans few
    · rintro conjunct - spans (crosses | few)
      · exact spans.not_crosses_right disjoint crosses
      · exact small spans few

/-- Every join tree over all inputs places each conjunct once, and any two trees over the same
inputs place the same conjuncts. -/
theorem inner_conjuncts_placed_once (region : CDPHyperJoinRegion V) :
    (∀ complete : TreeOver region.nodeCount (Finset.range region.nodeCount),
      (region.attached complete.tree : Multiset (CConjunct V)) = region.conjuncts) ∧
    ∀ (nodes : CBitSet) (first second : TreeOver region.nodeCount nodes),
      (region.attached first.tree : Multiset (CConjunct V)) = region.attached second.tree := by
  refine ⟨fun complete => region.attached_full complete.distinct complete.nodes_eq, ?_⟩
  intro nodes first second
  have size := Finset.card_le_card first.inside
  rw [Finset.card_range] at size
  rcases Nat.lt_or_eq_of_le size with part | full
  · rw [region.attached_part first.distinct (first.nodes_eq.symm ▸ part),
      region.attached_part second.distinct (second.nodes_eq.symm ▸ part), first.nodes_eq,
      second.nodes_eq]
  · have whole : nodes = Finset.range region.nodeCount :=
      Finset.eq_of_subset_of_card_le first.inside (by rw [Finset.card_range, full])
    rw [region.attached_full first.distinct (first.nodes_eq.trans whole),
      region.attached_full second.distinct (second.nodes_eq.trans whole)]

end CDPHyperJoinRegion
end JoinRegion
