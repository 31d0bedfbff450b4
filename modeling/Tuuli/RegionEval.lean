import Tuuli.JoinRequest
import Tuuli.RegionSemantics
import Tuuli.RegionTree

/-!
Results of join trees over a database. `evalOn` restricts the original tree to
a set of its leaves: an inner node keeps its operator when both sides have a
leaf in the set and disappears otherwise.
-/
namespace JoinRegion
open BagJoins TreeSplits

variable {V : Type}

abbrev Database (V : Type) := ℕ → Multiset (Row ℕ V)

/-- The original tree, with its atoms numbered from `first` on. -/
def CExpression.eval (db : Database V) : CExpression V → ℕ → Multiset (Row ℕ V)
  | .atom _, first => db first
  | .join op l r predicate _, first =>
    joinRows op predicate (l.eval db first) (r.eval db (first + l.atomList.length))

/-- A join tree with the operator, orientation and predicate its requests name. -/
def JoinTree.eval (spec : CJoinRegionSpec V) (db : Database V) : JoinTree → Multiset (Row ℕ V)
  | .leaf node => db node
  | .join l r =>
    match fBuildJoinRequest spec l.nodes r.nodes with
    | some request =>
      if request.swapped then
        joinRows request.joinType (pexprPredicate spec request) (r.eval spec db) (l.eval spec db)
      else
        joinRows request.joinType (pexprPredicate spec request) (l.eval spec db) (r.eval spec db)
    | none => 0

def Database.Valid (atoms : List CAtom) (db : Database V) : Prop :=
  ∀ node, RowsOf atoms {node} (db node)

def joinAt (spec : CJoinRegionSpec V) (k : ℕ) (R S : Multiset (Row ℕ V)) : Multiset (Row ℕ V) :=
  match spec.edges[k]? with
  | some edge => joinRows edge.joinType edge.predicate R S
  | none => 0

def evalOn (spec : CJoinRegionSpec V) (db : Database V) (T : CBitSet) :
    SplitTree ℕ ℕ → Multiset (Row ℕ V)
  | .leaf node => db node
  | .node k l r =>
    if Disjoint T l.leaves then evalOn spec db T r
    else if Disjoint T r.leaves then evalOn spec db T l
    else joinAt spec k (evalOn spec db T l) (evalOn spec db T r)

variable {atoms : List CAtom} {m n : CBitSet} {R : Multiset (Row ℕ V)}

theorem joinRows_within {op : EOperatorId} {predicate : CPredicate V} {S : Multiset (Row ℕ V)}
    (hR : RowsOf atoms m R) (hS : RowsOf atoms n S) :
    RowsOf atoms (m ∪ n) (joinRows op predicate R S) := by
  simp only [RowsOf, pcrsNodes_union, Finset.coe_union] at *
  cases op
  case fullOuterJoin => exact fullJoin_within hR hS
  case rightOuterJoin => exact Set.union_comm _ _ ▸ leftJoin_within hS hR
  all_goals exact leftJoin_within hR hS

theorem RowsOf.mono (h : RowsOf atoms m R) (sub : m ⊆ n) : RowsOf atoms n R :=
  fun r hr => (h r hr).mono (Finset.coe_subset.mpr (pcrsNodes_mono sub))

section Restriction
variable {spec : CJoinRegionSpec V} {db : Database V} {T U : CBitSet} {k : ℕ}
  {l r t : SplitTree ℕ ℕ}

theorem evalOn_left (meets : ¬ Disjoint T l.leaves) (away : Disjoint T r.leaves) :
    evalOn spec db T (.node k l r) = evalOn spec db T l := by
  rw [evalOn, if_neg meets, if_pos away]

theorem evalOn_right (away : Disjoint T l.leaves) :
    evalOn spec db T (.node k l r) = evalOn spec db T r := by
  rw [evalOn, if_pos away]

theorem evalOn_split {edge : CEdge V} (found : spec.edges[k]? = some edge)
    (meetsL : ¬ Disjoint T l.leaves) (meetsR : ¬ Disjoint T r.leaves) :
    evalOn spec db T (.node k l r)
      = joinRows edge.joinType edge.predicate (evalOn spec db T l) (evalOn spec db T r) := by
  rw [evalOn, if_neg meetsL, if_neg meetsR, joinAt, found]

theorem disjoint_of_inter_eq {s t : CBitSet} (same : T ∩ t = U ∩ t) (sub : s ⊆ t) :
    Disjoint T s ↔ Disjoint U s := by
  have restrict : ∀ W : CBitSet, W ∩ t ∩ s = W ∩ s := fun W => by
    rw [Finset.inter_assoc, Finset.inter_eq_right.mpr sub]
  rw [Finset.disjoint_iff_inter_eq_empty, Finset.disjoint_iff_inter_eq_empty,
    ← restrict T, ← restrict U, same]

theorem evalOn_congr (same : T ∩ t.leaves = U ∩ t.leaves) :
    evalOn spec db T t = evalOn spec db U t := by
  induction t with
  | leaf node => rfl
  | node k l r ihl ihr =>
    have narrow : ∀ s ⊆ (SplitTree.node k l r).leaves, T ∩ s = U ∩ s := by
      intro s sub
      rw [← Finset.inter_eq_right.mpr sub, ← Finset.inter_assoc, same, Finset.inter_assoc]
    have left := disjoint_of_inter_eq same (Finset.subset_union_left : l.leaves ⊆ _)
    have right := disjoint_of_inter_eq same (Finset.subset_union_right : r.leaves ⊆ _)
    simp only [evalOn, left, right, ihl (narrow _ Finset.subset_union_left),
      ihr (narrow _ Finset.subset_union_right)]

theorem evalOn_rows (spec : CJoinRegionSpec V) {atoms : List CAtom} (valid : db.Valid atoms)
    (meets : ¬ Disjoint T t.leaves) : RowsOf atoms (T ∩ t.leaves) (evalOn spec db T t) := by
  induction t with
  | leaf node =>
    have member : node ∈ T := by simpa [SplitTree.leaves] using meets
    simpa [SplitTree.leaves, evalOn, Finset.inter_singleton_of_mem member] using valid node
  | node k l r ihl ihr =>
    have subL : T ∩ l.leaves ⊆ T ∩ (SplitTree.node k l r).leaves :=
      Finset.inter_subset_inter_left Finset.subset_union_left
    have subR : T ∩ r.leaves ⊆ T ∩ (SplitTree.node k l r).leaves :=
      Finset.inter_subset_inter_left Finset.subset_union_right
    simp only [evalOn]
    split
    · rename_i away
      have meetsR : ¬ Disjoint T r.leaves := fun right =>
        meets (Finset.disjoint_union_right.mpr ⟨away, right⟩)
      exact (ihr meetsR).mono subR
    · rename_i meetsL
      split
      · exact (ihl meetsL).mono subL
      · rename_i meetsR
        simp only [joinAt]
        split
        · exact (joinRows_within (ihl meetsL) (ihr meetsR)).mono (Finset.union_subset subL subR)
        · intro row member
          simp at member

theorem evalOn_singleton {node : ℕ} (valid : t.Distinct) (member : node ∈ t.leaves) :
    evalOn spec db {node} t = db node := by
  induction t with
  | leaf other =>
    rw [Finset.mem_singleton.mp member, evalOn]
  | node k l r ihl ihr =>
    rcases Finset.mem_union.mp member with left | right
    · have away : node ∉ r.leaves := Finset.disjoint_left.mp valid.2.2 left
      rw [evalOn_left (by simpa using left) (by simpa using away)]
      exact ihl valid.1 left
    · have away : node ∉ l.leaves := Finset.disjoint_right.mp valid.2.2 right
      rw [evalOn_right (by simpa using away)]
      exact ihr valid.2.1 right

theorem evalOn_all {expr : CExpression V} {first edge : ℕ} (all : expr.nodeSet first ⊆ T)
    (operators : ∀ i raw, (expr.rawEdges first)[i]? = some raw → ∃ built, spec.edges[edge + i]? =
      some built ∧ built.joinType = raw.joinType ∧ built.predicate = raw.predicate) :
    evalOn spec db T (expr.regionTree first edge) = expr.eval db first := by
  induction expr generalizing first edge with
  | atom a => rfl
  | join op l r predicate notinComparison ihl ihr =>
    rw [CExpression.nodeSet_join, Finset.union_subset_iff] at all
    have lengthL := CExpression.rawEdges_length l first
    have lengthR := CExpression.rawEdges_length r (first + l.atomList.length)
    have meets : ∀ {t : SplitTree ℕ ℕ}, t.leaves ⊆ T → ¬ Disjoint T t.leaves := by
      intro t inside
      obtain ⟨node, member⟩ := t.leaves_nonempty
      exact Finset.not_disjoint_iff.mpr ⟨node, inside member, member⟩
    obtain ⟨built, found, sameOp, samePredicate⟩ := operators (l.joinCount + r.joinCount) _ (by
      simp only [CExpression.rawEdges]
      rw [← lengthL, ← lengthR, ← List.length_append]
      exact List.getElem?_concat_length ..)
    rw [← Nat.add_assoc] at found
    rw [CExpression.regionTree, evalOn_split found
      (meets (CExpression.regionTree_leaves l first edge ▸ all.1))
      (meets (CExpression.regionTree_leaves r _ _ ▸ all.2)), sameOp, samePredicate,
      CExpression.eval, ihl all.1, ihr all.2]
    · intro i raw inRight
      have bound := (List.getElem?_eq_some_iff.mp inRight).1
      rw [Nat.add_assoc]
      refine operators (l.joinCount + i) raw ?_
      simp only [CExpression.rawEdges]
      rw [List.append_assoc, List.getElem?_append_right (by omega), lengthL,
        Nat.add_sub_cancel_left, List.getElem?_append_left bound]
      exact inRight
    · intro i raw inLeft
      have bound := (List.getElem?_eq_some_iff.mp inLeft).1
      refine operators i raw ?_
      simp only [CExpression.rawEdges]
      rw [List.append_assoc, List.getElem?_append_left bound]
      exact inLeft

end Restriction

end JoinRegion
