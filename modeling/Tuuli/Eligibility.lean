import Tuuli.RegionSpec

/-!
What `BuildEligibility` guarantees of an edge: its total eligibility set
contains the cover of its predicate and reaches both sides, and every conflict
rule collected for it is still enforced when the edge is applied, either as a
kept rule or because its required nodes were absorbed.
-/
namespace JoinRegion

variable {V : Type} {rules : List CConflictRule} {tes : CBitSet}

theorem subset_absorbRound (rules : List CConflictRule) (tes : CBitSet) :
    tes ⊆ absorbRound rules tes := by
  induction rules generalizing tes with
  | nil => exact Finset.Subset.refl _
  | cons rule rules ih =>
    simp only [absorbRound, List.foldl_cons] at ih ⊢
    split
    · exact ih tes
    · exact Finset.subset_union_left.trans (ih _)

theorem subset_absorbRounds (rules : List CConflictRule) (fuel : ℕ) (tes : CBitSet) :
    tes ⊆ absorbRounds rules fuel tes := by
  induction fuel generalizing tes with
  | zero => exact Finset.Subset.refl _
  | succ fuel ih =>
    simp only [absorbRounds]
    split
    · exact Finset.Subset.refl _
    · exact (subset_absorbRound rules tes).trans (ih _)

theorem absorbRound_progress (changed : absorbRound rules tes ≠ tes) :
    ∃ rule ∈ rules, ¬ rule.required ⊆ tes ∧ rule.required ⊆ absorbRound rules tes := by
  induction rules generalizing tes with
  | nil => exact absurd rfl changed
  | cons rule rules ih =>
    simp only [absorbRound, List.foldl_cons] at ih changed ⊢
    by_cases kept : rule.satisfied tes = true
    · rw [if_pos kept] at changed ⊢
      obtain ⟨later, member, missing, absorbed⟩ := ih changed
      exact ⟨later, List.mem_cons_of_mem _ member, missing, absorbed⟩
    · rw [if_neg kept]
      have missing : ¬ rule.required ⊆ tes := by
        intro inside
        exact kept (decide_eq_true (.inr inside))
      exact ⟨rule, List.mem_cons_self, missing,
        Finset.subset_union_right.trans (subset_absorbRound rules (tes ∪ rule.required))⟩

theorem absorbRound_of_all (all : ∀ rule ∈ rules, rule.required ⊆ tes) :
    absorbRound rules tes = tes := by
  by_contra changed
  obtain ⟨rule, member, missing, -⟩ := absorbRound_progress changed
  exact missing (all rule member)

def openRules (rules : List CConflictRule) (tes : CBitSet) : List CConflictRule :=
  rules.filter (fun rule => ¬ rule.required ⊆ tes)

theorem openRules_openRules {rules : List CConflictRule} {tes more : CBitSet} (grows : tes ⊆ more) :
    openRules (openRules rules tes) more = openRules rules more := by
  rw [openRules, openRules, openRules, List.filter_filter]
  refine List.filter_congr (fun rule _ => ?_)
  by_cases inside : rule.required ⊆ tes
  · simp [inside.trans grows]
  · simp [inside]

theorem openRules_progress (changed : absorbRound rules tes ≠ tes) :
    (openRules rules (absorbRound rules tes)).length < (openRules rules tes).length := by
  obtain ⟨rule, member, missing, absorbed⟩ := absorbRound_progress changed
  rw [← openRules_openRules (subset_absorbRound rules tes), openRules,
    List.length_filter_lt_length_iff_exists]
  refine ⟨rule, ?_, ?_⟩
  · simp [openRules, member, missing]
  · simp [absorbed]

theorem absorbRounds_fixed_of_bound {fuel : ℕ} (bound : (openRules rules tes).length ≤ fuel) :
    absorbRound rules (absorbRounds rules fuel tes) = absorbRounds rules fuel tes := by
  induction fuel generalizing tes with
  | zero =>
    have closed : openRules rules tes = [] := List.length_eq_zero_iff.mp (Nat.le_zero.mp bound)
    simp only [absorbRounds]
    refine absorbRound_of_all (fun rule member => ?_)
    have kept := List.filter_eq_nil_iff.mp closed rule member
    simpa using kept
  | succ fuel ih =>
    simp only [absorbRounds]
    split
    · assumption
    · rename_i changed
      have fewer := openRules_progress changed
      exact ih (by omega)

theorem absorbRounds_fixed (rules : List CConflictRule) (tes : CBitSet) :
    absorbRound rules (absorbRounds rules rules.length tes)
      = absorbRounds rules rules.length tes :=
  absorbRounds_fixed_of_bound (List.length_filter_le _ _)

/-- `b` is `a` with a larger eligibility set that makes up for the rules it dropped. -/
def Grows (a b : CEdge V) : Prop :=
  ∃ tes rules, b = { a with tes := tes, conflictRules := rules } ∧ a.tes ⊆ tes ∧
    ∀ rule ∈ a.conflictRules, rule ∈ rules ∨ rule.required ⊆ tes

variable {a b : CEdge V}

theorem Grows.refl (a : CEdge V) : Grows a a :=
  ⟨a.tes, a.conflictRules, rfl, Finset.Subset.refl _, fun _ member => .inl member⟩

theorem Grows.trans {c : CEdge V} (first : Grows a b) (second : Grows b c) : Grows a c := by
  obtain ⟨tes, rules, rfl, grows, enforced⟩ := first
  obtain ⟨tes', rules', rfl, grows', enforced'⟩ := second
  refine ⟨tes', rules', rfl, grows.trans grows', fun rule member => ?_⟩
  rcases enforced rule member with kept | absorbed
  · exact enforced' rule kept
  · exact .inr (absorbed.trans grows')

theorem Grows.tes_subset (h : Grows a b) : a.tes ⊆ b.tes := by
  obtain ⟨tes, rules, rfl, grows, -⟩ := h
  exact grows

theorem absorbConflictRules_grows (edge : CEdge V) : Grows edge (absorbConflictRules edge) := by
  refine ⟨_, _, rfl, subset_absorbRounds _ _ _, fun rule member => ?_⟩
  by_cases absorbed : rule.required ⊆ absorbRounds edge.conflictRules
      edge.conflictRules.length edge.tes
  · exact .inr absorbed
  · exact .inl (List.mem_filter.mpr ⟨member, by simpa using absorbed⟩)

theorem touchSide_grows (side : CBitSet) (edge : CEdge V) : Grows edge (touchSide side edge) := by
  unfold touchSide
  split
  · have widened : Grows edge { edge with tes := edge.tes ∪ side } :=
      ⟨_, _, rfl, Finset.subset_union_left, fun _ member => .inl member⟩
    exact widened.trans (absorbConflictRules_grows _)
  · exact Grows.refl edge

theorem touchSide_meets {side : CBitSet} (nonempty : side.Nonempty) (edge : CEdge V) :
    ¬ Disjoint (touchSide side edge).tes side := by
  unfold touchSide
  split
  · have inside : side ⊆ (absorbConflictRules { edge with tes := edge.tes ∪ side }).tes := by
      have grows := (absorbConflictRules_grows { edge with tes := edge.tes ∪ side }).tes_subset
      exact Finset.Subset.trans Finset.subset_union_right grows
    obtain ⟨node, member⟩ := nonempty
    exact Finset.not_disjoint_iff.mpr ⟨node, inside member, member⟩
  · assumption

theorem not_disjoint_of_subset {s t u : CBitSet} (sub : s ⊆ t) (meets : ¬ Disjoint s u) :
    ¬ Disjoint t u :=
  fun disjoint => meets (disjoint.mono_left sub)

section Build
variable (nullRejecting : CPredicate V → CColRefSet → Bool) (atoms : List CAtom)
  (earlier : List (CEdge V))

/-- The edge as `BuildEligibility` starts from it. -/
def startEligibility (edge : CEdge V) : CEdge V :=
  { edge with
    ses := pbsPredicateCover atoms edge.predicate
    tes := pbsPredicateCover atoms edge.predicate
    conflictRules := earlier.flatMap (conflictRulesFor nullRejecting atoms edge) }

theorem buildEligibility_grows (edge : CEdge V) :
    Grows (startEligibility nullRejecting atoms earlier edge)
      (buildEligibility nullRejecting atoms earlier edge) :=
  ((absorbConflictRules_grows _).trans (touchSide_grows _ _)).trans (touchSide_grows _ _)

theorem buildEligibility_keeps (edge : CEdge V) :
    (buildEligibility nullRejecting atoms earlier edge).joinType = edge.joinType ∧
      (buildEligibility nullRejecting atoms earlier edge).predicate = edge.predicate := by
  obtain ⟨tes, rules, result, -⟩ := buildEligibility_grows nullRejecting atoms earlier edge
  rw [result]
  exact ⟨rfl, rfl⟩

theorem buildEligibility_spec {edge : CEdge V} (left : edge.left.Nonempty)
    (right : edge.right.Nonempty) :
    ∃ tes rules, buildEligibility nullRejecting atoms earlier edge
        = { edge with
            ses := pbsPredicateCover atoms edge.predicate
            tes := tes
            conflictRules := rules } ∧
      pbsPredicateCover atoms edge.predicate ⊆ tes ∧
      ¬ Disjoint tes edge.left ∧ ¬ Disjoint tes edge.right ∧
      ∀ rule ∈ earlier.flatMap (conflictRulesFor nullRejecting atoms edge),
        rule ∈ rules ∨ rule.required ⊆ tes := by
  let middle := touchSide edge.left
    (absorbConflictRules (startEligibility nullRejecting atoms earlier edge))
  have last : Grows middle (touchSide edge.right middle) := touchSide_grows _ _
  have meetsLeft : ¬ Disjoint (touchSide edge.right middle).tes edge.left :=
    not_disjoint_of_subset last.tes_subset (touchSide_meets left _)
  have meetsRight : ¬ Disjoint (touchSide edge.right middle).tes edge.right :=
    touchSide_meets right _
  obtain ⟨tes, rules, result, covers, enforced⟩ :=
    buildEligibility_grows nullRejecting atoms earlier edge
  have same : touchSide edge.right middle = buildEligibility nullRejecting atoms earlier edge := rfl
  rw [same, result] at meetsLeft meetsRight
  exact ⟨tes, rules, result, covers, meetsLeft, meetsRight, enforced⟩

end Build

/-- An applied edge joins its eligibility set across the cut and satisfies its rules. -/
theorem CEdge.fApplicable_spec {edge : CEdge V} {left right : CBitSet}
    (applicable : edge.fApplicable left right = true) :
    Disjoint left right ∧ edge.tes ⊆ left ∪ right ∧ ¬ Disjoint edge.tes left ∧
      ¬ Disjoint edge.tes right ∧
      (∀ rule ∈ edge.conflictRules, rule.satisfied (left ∪ right) = true) ∧
      (edge.joinType ≠ .innerJoin → edge.tes ∩ edge.left ⊆ left ∧ edge.tes ∩ edge.right ⊆ right) := by
  simp only [fApplicable] at applicable
  split at applicable
  · exact absurd applicable (by simp)
  · rename_i disjoint
    split at applicable
    · exact absurd applicable (by simp)
    · rename_i covered
      simp only [not_or, not_not] at covered
      split at applicable
      · exact absurd applicable (by simp)
      · rename_i rules
        refine ⟨not_not.mp disjoint, covered.1, covered.2.1, covered.2.2, fun rule member => ?_, ?_⟩
        · by_contra violated
          exact rules (List.any_eq_true.mpr ⟨rule, member, by simpa using violated⟩)
        · intro nonInner
          rw [if_neg nonInner, decide_eq_true_eq] at applicable
          refine ⟨fun node member => ?_, fun node member => ?_⟩
          · have bounds := Finset.mem_inter.mp member
            by_contra outside
            exact applicable node bounds.1 (.inl ⟨bounds.2, outside⟩)
          · have bounds := Finset.mem_inter.mp member
            by_contra outside
            exact applicable node bounds.1 (.inr ⟨bounds.2, outside⟩)

end JoinRegion
