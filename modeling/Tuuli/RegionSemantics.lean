import Tuuli.RegionSpec
import Tuuli.JoinLaws
import Mathlib.Data.Finset.Powerset

/-!
What the operators of a region compute, and what the scalar layer promises:
a positive null-rejection answer is true of the predicate, and different
atoms have different output columns.
-/
namespace JoinRegion
open BagJoins

variable {V : Type}

def leftKind : EOperatorId → Option LeftJoin
  | .innerJoin => some .inner
  | .leftOuterJoin => some .outer
  | .leftSemiJoin => some .semi
  | .leftAntiSemiJoin => some .anti
  | .leftAntiSemiJoinNotIn => some .antiNotIn
  | .fullOuterJoin => none
  | .rightOuterJoin => none

def joinRows (op : EOperatorId) (predicate : CPredicate V) (R S : Multiset (Row ℕ V)) :
    Multiset (Row ℕ V) :=
  match op with
  | .innerJoin => leftJoin .inner predicate.value R S
  | .leftOuterJoin => leftJoin .outer predicate.value R S
  | .leftSemiJoin => leftJoin .semi predicate.value R S
  | .leftAntiSemiJoin => leftJoin .anti predicate.value R S
  | .leftAntiSemiJoinNotIn => leftJoin .antiNotIn predicate.value R S
  | .fullOuterJoin => fullJoin predicate.value R S
  | .rightOuterJoin => leftJoin .outer predicate.value S R

variable {op : EOperatorId}

theorem joinRows_of_leftKind {k : LeftJoin} (kind : leftKind op = some k) (predicate : CPredicate V)
    (R S : Multiset (Row ℕ V)) : joinRows op predicate R S = leftJoin k predicate.value R S := by
  cases op <;> simp only [leftKind, Option.some.injEq, reduceCtorEq] at kind <;> subst kind <;> rfl

theorem leftKind_of_supported (supported : fCDCSupportedJoin op = true)
    (notFull : op ≠ .fullOuterJoin) : ∃ k, leftKind op = some k := by
  cases op <;> simp_all [fCDCSupportedJoin, leftKind]

def NullRejectionSound (nullRejecting : CPredicate V → CColRefSet → Bool) : Prop :=
  ∀ predicate columns, nullRejecting predicate columns = true →
    RejectsNulls (columns : Set ℕ) predicate.value

def ColumnsDisjoint (atoms : List CAtom) : Prop :=
  ∀ i j, i ≠ j → Disjoint (outputColumns atoms i) (outputColumns atoms j)

/-- The rows of a bag carry columns of `nodes` only. -/
def RowsOf (atoms : List CAtom) (nodes : CBitSet) (R : Multiset (Row ℕ V)) : Prop :=
  BagWithin (pcrsNodes atoms nodes : Set ℕ) R

variable {atoms : List CAtom} {nodes m n e : CBitSet}

theorem mem_pcrsNodes {c : ℕ} :
    c ∈ pcrsNodes atoms nodes ↔ ∃ node ∈ nodes, c ∈ outputColumns atoms node := by
  simp [pcrsNodes]

theorem pcrsNodes_mono (sub : m ⊆ n) : pcrsNodes atoms m ⊆ pcrsNodes atoms n :=
  Finset.biUnion_subset_biUnion_of_subset_left _ sub

theorem pcrsNodes_union (atoms : List CAtom) (m n : CBitSet) :
    pcrsNodes atoms (m ∪ n) = pcrsNodes atoms m ∪ pcrsNodes atoms n :=
  Finset.union_biUnion

theorem pcrsNodes_disjoint (distinct : ColumnsDisjoint atoms) (disjoint : Disjoint m n) :
    Disjoint (pcrsNodes atoms m : Set ℕ) (pcrsNodes atoms n) := by
  rw [Finset.disjoint_coe, Finset.disjoint_left]
  intro c left right
  obtain ⟨i, hi, ci⟩ := mem_pcrsNodes.mp left
  obtain ⟨j, hj, cj⟩ := mem_pcrsNodes.mp right
  have different : i ≠ j := fun same => Finset.disjoint_left.mp disjoint hi (same ▸ hj)
  exact Finset.disjoint_left.mp (distinct i j different) ci cj

theorem columns_free (distinct : ColumnsDisjoint atoms) {used : CColRefSet}
    (scope : used ⊆ pcrsNodes atoms (m ∪ n)) (awayM : Disjoint e m) (awayN : Disjoint e n) :
    Disjoint (pcrsNodes atoms e : Set ℕ) used := by
  have away : Disjoint e (m ∪ n) := Finset.disjoint_union_right.mpr ⟨awayM,awayN⟩
  exact (pcrsNodes_disjoint distinct away).mono_right (Finset.coe_subset.mpr scope)

theorem rejects_of_fNullRejecting {nullRejecting : CPredicate V → CColRefSet → Bool}
    (sound : NullRejectionSound nullRejecting) (distinct : ColumnsDisjoint atoms) {edge : CEdge V}
    {f : CBitSet} (answer : fNullRejecting nullRejecting atoms edge nodes = true)
    (inside : e ⊆ nodes) (away : Disjoint nodes f)
    (scope : edge.predicate.usedColumns ⊆ pcrsNodes atoms (e ∪ f)) :
    RejectsNulls (pcrsNodes atoms e : Set ℕ) edge.predicate.value := by
  have rejects := sound _ _ answer
  have split : pcrsNodes atoms nodes = pcrsNodes atoms e ∪ pcrsNodes atoms (nodes \ e) := by
    rw [← pcrsNodes_union, Finset.union_sdiff_of_subset inside]
  rw [split, Finset.coe_union] at rejects
  refine rejects.on_read edge.predicate.reads ?_
  exact columns_free distinct scope Finset.sdiff_disjoint (away.mono_left Finset.sdiff_subset)

/-! A scalar layer over one-value columns, where null rejection is decided by evaluation. -/

def columnAtoms (n : ℕ) : List CAtom :=
  (List.range n).map (fun c => ⟨{c}, ∅⟩)

theorem columnAtoms_distinct (n : ℕ) : ColumnsDisjoint (columnAtoms n) := by
  have single : ∀ i, outputColumns (columnAtoms n) i ⊆ {i} := by
    intro i
    by_cases bound : i < n <;> simp [outputColumns, columnAtoms, bound]
  intro i j different
  exact ((Finset.disjoint_singleton.mpr different).mono_left (single i)).mono_right (single j)

/-- `a = b` over a one-value domain: UNKNOWN when a side is NULL. -/
def equality (a b : ℕ) : CConjunct Unit where
  usedColumns := {a, b}
  value row := if (row a).isSome ∧ (row b).isSome then some true else none
  reads r s agree := by
    have left : r a = s a := agree a (by simp)
    have right : r b = s b := agree b (by simp)
    simp only [left, right]

def isNotNull (a : ℕ) : CConjunct Unit where
  usedColumns := {a}
  value row := some (row a).isSome
  reads r s agree := by
    have same : r a = s a := agree a (by simp)
    simp only [same]

/-- The row whose non-NULL columns are `known`. -/
def rowOf (known : CColRefSet) : Row ℕ Unit :=
  fun c => if c ∈ known then some () else none

def decideNullRejecting (predicate : CPredicate Unit) (columns : CColRefSet) : Bool :=
  decide (∀ known ∈ (predicate.usedColumns \ columns).powerset,
    predicate.value (rowOf known) ≠ some true)

theorem decideNullRejecting_sound : NullRejectionSound decideNullRejecting := by
  intro predicate columns answer row nulls holds
  simp only [decideNullRejecting, decide_eq_true_eq, Finset.mem_powerset] at answer
  have agree : predicate.value (rowOf (predicate.usedColumns.filter (fun c => (row c).isSome)))
      = predicate.value row := by
    refine predicate.reads _ _ (fun c hc => ?_)
    have used : c ∈ predicate.usedColumns := hc
    cases known : row c <;> simp [rowOf, used, known]
  refine answer _ ?_ (agree.trans holds)
  intro c hc
  rw [Finset.mem_filter] at hc
  refine Finset.mem_sdiff.mpr ⟨hc.1, fun member => ?_⟩
  rw [nulls c member] at hc
  simp at hc

end JoinRegion
