import Tuuli.EdgeConsumption
import Tuuli.LateralRegion

/-!
The eligibility set that `BuildEligibility` leaves is a closure: the least set with the
completed cover of the predicate that satisfies every collected rule. The rules of one input
stay in that input, so absorption never reaches a side the predicate does not read. The
original cut satisfies every rule, which is why the original joins can be replayed.
-/
namespace JoinRegion
open TreeSplits
open DPHyper hiding CBitSet

variable {V : Type}

section Closure
variable {rules : List CConflictRule} {start nodes : CBitSet}

theorem CConflictRule.satisfied_iff {rule : CConflictRule} :
    rule.satisfied nodes = true ↔ Disjoint nodes rule.activate ∨ rule.required ⊆ nodes :=
  decide_eq_true_iff

def Closed (rules : List CConflictRule) (nodes : CBitSet) : Prop :=
  ∀ rule ∈ rules, rule.satisfied nodes = true

def ClosedAbove (start : CBitSet) (rules : List CConflictRule) : Set CBitSet :=
  {nodes | start ⊆ nodes ∧ Closed rules nodes}

theorem closed_of_absorbRound_eq (fixed : absorbRound rules nodes = nodes) :
    Closed rules nodes := by
  induction rules with
  | nil => exact fun rule listed => absurd listed List.not_mem_nil
  | cons rule rest ih =>
    simp only [absorbRound, List.foldl_cons] at ih fixed
    by_cases kept : rule.satisfied nodes = true
    · rw [if_pos kept] at fixed
      intro other listed
      rcases List.mem_cons.mp listed with rfl | later
      · exact kept
      · exact ih fixed other later
    · rw [if_neg kept] at fixed
      have absorbed : nodes ∪ rule.required ⊆ nodes := by
        have grows := subset_absorbRound rest (nodes ∪ rule.required)
        rwa [absorbRound, fixed] at grows
      have satisfied := CConflictRule.satisfied_iff.mpr
        (.inr (Finset.union_subset_right absorbed))
      exact absurd satisfied kept

theorem absorbRound_subset (inside : start ⊆ nodes) (closed : Closed rules nodes) :
    absorbRound rules start ⊆ nodes := by
  induction rules generalizing start with
  | nil => exact inside
  | cons rule rest ih =>
    have closedRest : Closed rest nodes :=
      fun other listed => closed other (List.mem_cons_of_mem rule listed)
    simp only [absorbRound, List.foldl_cons] at ih ⊢
    by_cases kept : rule.satisfied start = true
    · rw [if_pos kept]
      exact ih inside closedRest
    · rw [if_neg kept]
      refine ih (Finset.union_subset inside ?_) closedRest
      rcases CConflictRule.satisfied_iff.mp (closed rule List.mem_cons_self) with away | has
      · exact absurd (CConflictRule.satisfied_iff.mpr (.inl (away.mono_left inside))) kept
      · exact has

theorem absorbRounds_subset (fuel : ℕ) (inside : start ⊆ nodes) (closed : Closed rules nodes) :
    absorbRounds rules fuel start ⊆ nodes := by
  induction fuel generalizing start with
  | zero => exact inside
  | succ fuel ih =>
    rw [absorbRounds]
    split
    · exact inside
    · exact ih (absorbRound_subset inside closed)

theorem absorbRounds_isLeast (rules : List CConflictRule) (start : CBitSet) :
    IsLeast (ClosedAbove start rules) (absorbRounds rules rules.length start) := by
  constructor
  · exact ⟨subset_absorbRounds rules rules.length start,
      closed_of_absorbRound_eq (absorbRounds_fixed rules start)⟩
  · intro nodes above
    exact absorbRounds_subset rules.length above.1 above.2

end Closure

section Absorbed
variable {start side : CBitSet} {rules : List CConflictRule} {edge : CEdge V}

/-- The edge has the closure of `start` and the rules that are still open there. -/
structure Absorbed (start : CBitSet) (rules : List CConflictRule) (edge : CEdge V) : Prop where
  least : IsLeast (ClosedAbove start rules) edge.tes
  kept : edge.conflictRules = openRules rules edge.tes

theorem absorbConflictRules_absorbed (edge : CEdge V) :
    Absorbed edge.tes edge.conflictRules (absorbConflictRules edge) :=
  ⟨absorbRounds_isLeast edge.conflictRules edge.tes, rfl⟩

variable (absorbed : Absorbed start rules edge)

include absorbed

theorem Absorbed.closed_of_open {nodes : CBitSet} (grows : edge.tes ⊆ nodes)
    (open_ : Closed edge.conflictRules nodes) : Closed rules nodes := by
  intro rule listed
  by_cases has : rule.required ⊆ edge.tes
  · exact CConflictRule.satisfied_iff.mpr (.inr (has.trans grows))
  · refine open_ rule ?_
    rw [absorbed.kept]
    exact List.mem_filter.mpr ⟨listed, decide_eq_true has⟩

theorem Absorbed.widen (side : CBitSet) :
    Absorbed (start ∪ side) rules (absorbConflictRules { edge with tes := edge.tes ∪ side }) := by
  obtain ⟨⟨above, closed⟩, below⟩ := (absorbConflictRules_absorbed
    { edge with tes := edge.tes ∪ side }).least
  have grows := Finset.union_subset_left above
  refine ⟨⟨⟨?_, ?_⟩, ?_⟩, ?_⟩
  · exact Finset.union_subset (absorbed.least.1.1.trans grows) (Finset.union_subset_right above)
  · exact absorbed.closed_of_open grows closed
  · rintro nodes ⟨inside, closedAll⟩
    have has : edge.tes ⊆ nodes :=
      absorbed.least.2 ⟨Finset.union_subset_left inside, closedAll⟩
    refine below ⟨Finset.union_subset has (Finset.union_subset_right inside), ?_⟩
    intro rule listed
    rw [absorbed.kept] at listed
    exact closedAll rule (List.mem_of_mem_filter listed)
  · have kept := (absorbConflictRules_absorbed { edge with tes := edge.tes ∪ side }).kept
    rw [kept, ← @openRules_openRules rules _ _ grows]
    exact congrArg (openRules · _) absorbed.kept

theorem Absorbed.touchSide (side : CBitSet) :
    Absorbed (if Disjoint edge.tes side then start ∪ side else start) rules
      (touchSide side edge) := by
  unfold JoinRegion.touchSide
  split
  · exact absorbed.widen side
  · exact absorbed

def Sided (left right : CBitSet) (rules : List CConflictRule) : Prop :=
  ∀ rule ∈ rules, (rule.activate ⊆ left ∧ rule.required ⊆ left) ∨
    (rule.activate ⊆ right ∧ rule.required ⊆ right)

theorem Absorbed.disjoint_iff {left right : CBitSet} (apart : Disjoint left right)
    (sided : Sided left right rules) : Disjoint edge.tes left ↔ Disjoint start left := by
  obtain ⟨⟨above, closed⟩, below⟩ := absorbed.least
  constructor
  · exact fun away => away.mono_left above
  · intro away
    -- the set without that side is closed as well
    have smaller : edge.tes \ left ∈ ClosedAbove start rules := by
      constructor
      · exact Finset.subset_sdiff.mpr ⟨above, away⟩
      · intro rule listed
        rcases sided rule listed with ⟨activates, -⟩ | ⟨-, requires⟩
        · exact CConflictRule.satisfied_iff.mpr
            (.inl (Finset.disjoint_of_subset_right activates Finset.sdiff_disjoint))
        · rcases CConflictRule.satisfied_iff.mp (closed rule listed) with quiet | has
          · exact CConflictRule.satisfied_iff.mpr (.inl (quiet.mono_left Finset.sdiff_subset))
          · exact CConflictRule.satisfied_iff.mpr (.inr (Finset.subset_sdiff.mpr
              ⟨has, (apart.mono_right requires).symm⟩))
    exact Finset.disjoint_of_subset_left (below smaller) Finset.sdiff_disjoint

end Absorbed

section Edges
variable (nullRejecting : CPredicate V → CColRefSet → Bool) (atoms : List CAtom)

theorem pbsIntersectIfNotDegenerate_subset (used available : CBitSet) :
    pbsIntersectIfNotDegenerate used available ⊆ available := by
  unfold pbsIntersectIfNotDegenerate
  split
  · exact Finset.Subset.refl _
  · exact Finset.inter_subset_right

theorem conflictRulesFor_sided (edge child : CEdge V) :
    Sided edge.left edge.right (conflictRulesFor nullRejecting atoms edge child) := by
  have leftIn : child.left ⊆ child.all := Finset.subset_union_left
  have rightIn : child.right ⊆ child.all := Finset.subset_union_right
  have usedLeft := (pbsIntersectIfNotDegenerate_subset child.ses child.left).trans leftIn
  have usedRight := (pbsIntersectIfNotDegenerate_subset child.ses child.right).trans rightIn
  -- both forms of a rule lie in the child
  have inside : ∀ rule ∈ conflictRulesFor nullRejecting atoms edge child,
      rule.activate ⊆ child.all ∧ rule.required ⊆ child.all := by
    intro rule listed
    unfold conflictRulesFor at listed
    split at listed
    · rcases List.mem_append.mp listed with first | second
      · split at first
        · exact absurd first List.not_mem_nil
        · rw [List.mem_singleton.mp first]
          exact ⟨rightIn, usedLeft⟩
      · split at second
        · exact absurd second List.not_mem_nil
        · rw [List.mem_singleton.mp second]
          exact ⟨leftIn, usedRight⟩
    · split at listed
      · rcases List.mem_append.mp listed with first | second
        · split at first
          · exact absurd first List.not_mem_nil
          · rw [List.mem_singleton.mp first]
            exact ⟨leftIn, usedRight⟩
        · split at second
          · exact absurd second List.not_mem_nil
          · rw [List.mem_singleton.mp second]
            exact ⟨rightIn, usedLeft⟩
      · exact absurd listed List.not_mem_nil
  intro rule listed
  obtain ⟨activates, requires⟩ := inside rule listed
  by_cases onLeft : child.all ⊆ edge.left
  · exact .inl ⟨activates.trans onLeft, requires.trans onLeft⟩
  · by_cases onRight : child.all ⊆ edge.right
    · exact .inr ⟨activates.trans onRight, requires.trans onRight⟩
    · rw [conflictRulesFor, if_neg onLeft, if_neg onRight] at listed
      exact absurd listed List.not_mem_nil

/-- The cover of the predicate, with each input it does not read added as a whole. -/
def CEdge.completedSes (edge : CEdge V) : CBitSet :=
  let withLeft := if Disjoint edge.ses edge.left then edge.ses ∪ edge.left else edge.ses
  if Disjoint edge.ses edge.right then withLeft ∪ edge.right else withLeft

/-- The rules that `BuildEligibility` collects for an edge. -/
def collectedRules (earlier : List (CEdge V)) (edge : CEdge V) : List CConflictRule :=
  earlier.flatMap (conflictRulesFor nullRejecting atoms edge)

theorem collectedRules_sided (earlier : List (CEdge V)) (edge : CEdge V) :
    Sided edge.left edge.right (collectedRules nullRejecting atoms earlier edge) := by
  intro rule listed
  obtain ⟨child, -, generated⟩ := List.mem_flatMap.mp listed
  exact conflictRulesFor_sided nullRejecting atoms edge child rule generated

theorem buildEligibility_absorbed (earlier : List (CEdge V)) {raw : CEdge V}
    (apart : Disjoint raw.left raw.right) :
    Absorbed (buildEligibility nullRejecting atoms earlier raw).completedSes
      (collectedRules nullRejecting atoms earlier
        (buildEligibility nullRejecting atoms earlier raw))
      (buildEligibility nullRejecting atoms earlier raw) := by
  have sided := collectedRules_sided nullRejecting atoms earlier raw
  have sidedBack : Sided raw.right raw.left (collectedRules nullRejecting atoms earlier raw) :=
    fun rule listed => (sided rule listed).symm
  have first := absorbConflictRules_absorbed (startEligibility nullRejecting atoms earlier raw)
  have second := first.touchSide raw.left
  have third := second.touchSide raw.right
  have meetsLeft := first.disjoint_iff apart sided
  have meetsRight := second.disjoint_iff apart.symm sidedBack
  obtain ⟨tes, rules, result, -⟩ := buildEligibility_grows nullRejecting atoms earlier raw
  have same : JoinRegion.touchSide raw.right (JoinRegion.touchSide raw.left (absorbConflictRules
      (startEligibility nullRejecting atoms earlier raw)))
      = buildEligibility nullRejecting atoms earlier raw := rfl
  rw [same] at third
  have completed : (buildEligibility nullRejecting atoms earlier raw).completedSes
      = (startEligibility nullRejecting atoms earlier raw).completedSes := by
    rw [result]
    rfl
  have collected : collectedRules nullRejecting atoms earlier
      (buildEligibility nullRejecting atoms earlier raw)
      = (startEligibility nullRejecting atoms earlier raw).conflictRules := by
    rw [result]
    rfl
  have startLeft : Disjoint (absorbConflictRules (startEligibility nullRejecting atoms earlier
      raw)).tes raw.left ↔ Disjoint (pbsPredicateCover atoms raw.predicate) raw.left := meetsLeft
  have startRight : Disjoint (JoinRegion.touchSide raw.left (absorbConflictRules
      (startEligibility nullRejecting atoms earlier raw))).tes raw.right ↔
      Disjoint (pbsPredicateCover atoms raw.predicate) raw.right := by
    rw [meetsRight]
    split
    · exact Finset.disjoint_union_left.trans (and_iff_left apart)
    · exact Iff.rfl
  simp only [startLeft, startRight] at third
  rw [completed, collected]
  exact third

end Edges

section Applicable
variable {edge : CEdge V} {left right : CBitSet}

theorem CEdge.fApplicable_of (disjoint : Disjoint left right) (inside : edge.tes ⊆ left ∪ right)
    (meetsLeft : ¬ Disjoint edge.tes left) (meetsRight : ¬ Disjoint edge.tes right)
    (closed : Closed edge.conflictRules (left ∪ right))
    (oriented : edge.tes ∩ edge.left ⊆ left ∧ edge.tes ∩ edge.right ⊆ right) :
    edge.fApplicable left right = true := by
  have satisfied : ¬ edge.conflictRules.any (fun rule => !rule.satisfied (left ∪ right)) = true := by
    intro found
    obtain ⟨rule, listed, violated⟩ := List.any_eq_true.mp found
    rw [closed rule listed] at violated
    exact absurd violated (by decide)
  have covered : ¬ (¬ edge.tes ⊆ left ∪ right ∨ Disjoint edge.tes left ∨
      Disjoint edge.tes right) := by
    rintro (outside | away | away)
    · exact outside inside
    · exact meetsLeft away
    · exact meetsRight away
  rw [fApplicable, if_neg (not_not.mpr disjoint), if_neg covered, if_neg satisfied]
  split
  · rfl
  · rw [decide_eq_true_eq]
    rintro node member (⟨onLeft, outside⟩ | ⟨onRight, outside⟩)
    · exact outside (oriented.1 (Finset.mem_inter.mpr ⟨member, onLeft⟩))
    · exact outside (oriented.2 (Finset.mem_inter.mpr ⟨member, onRight⟩))

theorem Absorbed.fApplicable_eq {start : CBitSet} {rules : List CConflictRule}
    (absorbed : Absorbed start rules edge) (left right : CBitSet) :
    CEdge.fApplicable { edge with conflictRules := rules } left right
      = edge.fApplicable left right := by
  by_cases inside : edge.tes ⊆ left ∪ right
  · have agree : rules.any (fun rule => !rule.satisfied (left ∪ right))
        = edge.conflictRules.any (fun rule => !rule.satisfied (left ∪ right)) := by
      rw [Bool.eq_iff_iff, List.any_eq_true, List.any_eq_true]
      constructor
      · rintro ⟨rule, listed, violated⟩
        refine ⟨rule, ?_, violated⟩
        rw [absorbed.kept]
        refine List.mem_filter.mpr ⟨listed, decide_eq_true fun has => ?_⟩
        rw [CConflictRule.satisfied_iff.mpr (.inr (has.trans inside))] at violated
        exact absurd violated (by decide)
      · rintro ⟨rule, listed, violated⟩
        rw [absorbed.kept] at listed
        exact ⟨rule, List.mem_of_mem_filter listed, violated⟩
    simp only [CEdge.fApplicable, agree]
  · simp only [CEdge.fApplicable, inside, not_false_eq_true, true_or, if_true]

end Applicable

namespace EnumeratedRegion

variable {region : EnumeratedRegion V} {j k : ℕ} {edge other : CEdge V}

/-- Each predicate reads the columns of no input outside its own subtree. -/
def WellScoped (region : EnumeratedRegion V) : Prop :=
  ∀ edge ∈ region.spec.edges, pbsPredicateCover region.spec.atoms edge.predicate ⊆ edge.all

/-- The rules that were collected for the edge with the number `k`. -/
def rulesOf (region : EnumeratedRegion V) (k : ℕ) (edge : CEdge V) : List CConflictRule :=
  collectedRules region.nullRejecting region.spec.atoms (region.spec.edges.take k) edge

/-- What the specification holds for one join of the original tree. -/
structure JoinEdge (region : EnumeratedRegion V) (k : ℕ) (edge : CEdge V) (l r : SplitTree ℕ ℕ) :
    Prop where
  node : SplitTree.HasNode k l r (region.root.regionTree 0 0)
  left : edge.left = l.leaves
  right : edge.right = r.leaves
  ses : edge.ses = pbsPredicateCover region.spec.atoms edge.predicate
  absorbed : Absorbed edge.completedSes (region.rulesOf k edge) edge
  meetsLeft : ¬ Disjoint edge.tes edge.left
  meetsRight : ¬ Disjoint edge.tes edge.right

theorem exists_joinEdge (found : region.spec.edges[k]? = some edge) :
    ∃ l r, region.JoinEdge k edge l r := by
  obtain ⟨atoms, edges, -, -⟩ := build_spec region.built region.supported
  have bound : k < region.spec.edges.length := (List.getElem?_eq_some_iff.mp found).1
  have member : k ∈ (region.root.regionTree 0 0).keys := by
    rw [edges, buildEdges_length, CExpression.rawEdges_length] at bound
    rw [CExpression.regionTree_keys, ← List.range_eq_range']
    exact List.mem_range.mpr bound
  obtain ⟨l, r, node⟩ := SplitTree.exists_hasNode member
  obtain ⟨-, raw, listed, left, right⟩ := CExpression.rawEdges_of_node node
  have built := buildEdges_getElem region.nullRejecting region.root.atomList listed
  rw [Nat.sub_zero, ← edges, found, Option.some.injEq] at built
  have apart : Disjoint raw.left raw.right := by
    rw [left, right]
    exact node.distinct (CExpression.regionTree_distinct _ _ _)
  have absorbed := buildEligibility_absorbed region.nullRejecting region.root.atomList
    (region.spec.edges.take k) apart
  obtain ⟨tes, rules, result, -, meetsLeft, meetsRight, -⟩ :=
    buildEligibility_spec region.nullRejecting region.root.atomList (region.spec.edges.take k)
      (left ▸ l.leaves_nonempty) (right ▸ r.leaves_nonempty)
  rw [← built] at absorbed
  rw [result] at built
  refine ⟨l, r, node, ?_, ?_, ?_, ?_, ?_, ?_⟩
  · rw [built]
    exact left
  · rw [built]
    exact right
  · rw [built, atoms]
  · rw [rulesOf, atoms]
    exact absorbed
  · rw [built]
    exact meetsLeft
  · rw [built]
    exact meetsRight

section JoinEdge
variable {l r l' r' : SplitTree ℕ ℕ} (facts : region.JoinEdge k edge l r)

include facts

theorem JoinEdge.disjoint : Disjoint edge.left edge.right := by
  rw [facts.left, facts.right]
  exact facts.node.distinct (CExpression.regionTree_distinct _ _ _)

omit facts in
theorem rulesOf_closed_all (k : ℕ) (edge : CEdge V) : Closed (region.rulesOf k edge) edge.all := by
  intro rule listed
  refine CConflictRule.satisfied_iff.mpr (.inr ?_)
  rcases collectedRules_sided _ _ _ edge rule listed with ⟨-, onLeft⟩ | ⟨-, onRight⟩
  · exact onLeft.trans Finset.subset_union_left
  · exact onRight.trans Finset.subset_union_right

theorem JoinEdge.tes_subset (scope : pbsPredicateCover region.spec.atoms edge.predicate ⊆ edge.all) :
    edge.tes ⊆ edge.all := by
  refine facts.absorbed.least.2 ⟨?_, rulesOf_closed_all k edge⟩
  have covered : edge.ses ⊆ edge.all := facts.ses ▸ scope
  have withLeft : (if Disjoint edge.ses edge.left then edge.ses ∪ edge.left else edge.ses)
      ⊆ edge.all := by
    split
    · exact Finset.union_subset covered Finset.subset_union_left
    · exact covered
  simp only [CEdge.completedSes]
  split
  · exact Finset.union_subset withLeft Finset.subset_union_right
  · exact withLeft

theorem JoinEdge.applicable (inside : edge.tes ⊆ edge.all) :
    edge.fApplicable edge.left edge.right = true := by
  refine CEdge.fApplicable_of facts.disjoint inside facts.meetsLeft facts.meetsRight ?_
    ⟨Finset.inter_subset_right, Finset.inter_subset_right⟩
  intro rule listed
  rw [facts.absorbed.kept] at listed
  exact rulesOf_closed_all k edge rule (List.mem_of_mem_filter listed)

theorem JoinEdge.eq_of_orientation (facts' : region.JoinEdge j other l' r')
    (inside' : other.tes ⊆ other.all)
    (oriented : (other.orientation edge.left edge.right).isSome = true) : j = k := by
  obtain ⟨swapped, oriented⟩ := Option.isSome_iff_exists.mp oriented
  obtain ⟨covered, meetsLeft, meetsRight⟩ := CEdge.orientation_joins oriented
  have ownLeft := facts'.meetsLeft
  have ownRight := facts'.meetsRight
  rw [CEdge.all, facts'.left, facts'.right] at inside'
  rw [facts'.left] at ownLeft
  rw [facts'.right] at ownRight
  rw [facts.left] at covered meetsLeft
  rw [facts.right] at covered meetsRight
  exact facts'.node.eq_of_split (CExpression.regionTree_distinct _ _ _) facts.node inside' covered
    ⟨ownLeft, ownRight⟩ ⟨meetsLeft, meetsRight⟩

end JoinEdge

variable (scope : region.WellScoped) (found : region.spec.edges[k]? = some edge)

include scope found

theorem tes_subset : edge.tes ⊆ edge.all := by
  obtain ⟨l, r, facts⟩ := exists_joinEdge found
  exact facts.tes_subset (scope edge (List.mem_of_getElem? found))

theorem orientation_original : edge.orientation edge.left edge.right = some false := by
  obtain ⟨l, r, facts⟩ := exists_joinEdge found
  rw [CEdge.orientation, if_pos (facts.applicable (tes_subset scope found))]

theorem orientation_iff (foundOther : region.spec.edges[j]? = some other) :
    (other.orientation edge.left edge.right).isSome = true ↔ j = k := by
  obtain ⟨l, r, facts⟩ := exists_joinEdge found
  obtain ⟨l', r', facts'⟩ := exists_joinEdge foundOther
  constructor
  · exact facts.eq_of_orientation facts' (tes_subset scope foundOther)
  · rintro rfl
    obtain rfl : other = edge := Option.some.inj (foundOther.symm.trans found)
    rw [orientation_original scope found]
    rfl

omit found

omit scope in
theorem filterMap_range_single {α : Type} {n : ℕ} {entry : α} (bound : k < n) :
    (List.range n).filterMap (fun i => if i = k then some entry else none) = [entry] := by
  induction n with
  | zero => omega
  | succ n ih =>
    rw [List.range_succ, List.filterMap_append]
    rcases Nat.lt_or_eq_of_le (Nat.le_of_lt_succ bound) with before | rfl
    · rw [ih before]
      simp [Nat.ne_of_gt before]
    · have none : (List.range k).filterMap (fun i => if i = k then some entry else none) = [] := by
        rw [List.filterMap_eq_nil_iff]
        intro i listed
        exact if_neg (Nat.ne_of_lt (List.mem_range.mp listed))
      rw [none]
      simp

omit scope in
theorem inner_of_pureInner (inner : region.spec.pureInner = true)
    (found : region.spec.edges[k]? = some edge) : edge.joinType = .innerJoin := by
  obtain ⟨-, edges, -, -⟩ := build_spec region.built region.supported
  have bound : k < (region.root.rawEdges 0).length := by
    rw [← buildEdges_length region.nullRejecting region.root.atomList, ← edges]
    exact (List.getElem?_eq_some_iff.mp found).1
  have built := buildEdges_getElem region.nullRejecting region.root.atomList
    (List.getElem?_eq_getElem bound)
  rw [← edges, found, Option.some.injEq] at built
  rw [built, (buildEligibility_keeps ..).1]
  exact CExpression.rawEdges_inner ((build_flags region.built).1.symm.trans inner)
    (List.getElem_mem bound)

variable (independent : region.spec.hasDependencies = false)

include independent

theorem fPairApplicable_original (mixed : region.spec.pureInner = false)
    (found : region.spec.edges[k]? = some edge) (bound : j < region.spec.edgeCount) :
    fPairApplicable region.spec edge.left edge.right j = if j = k then some false else none := by
  obtain ⟨other, foundOther⟩ : ∃ other, region.spec.edges[j]? = some other :=
    ⟨_, List.getElem?_eq_getElem bound⟩
  have applied : fPairApplicable region.spec edge.left edge.right j
      = other.orientation edge.left edge.right := by
    simp [fPairApplicable, fDependencyApplicable, independent, mixed, foundOther]
  rw [applied]
  split
  · rename_i same
    rw [same, found, Option.some.injEq] at foundOther
    rw [← foundOther]
    exact orientation_original scope found
  · rename_i different
    rw [Option.eq_none_iff_forall_ne_some]
    intro swapped oriented
    exact different ((orientation_iff scope found foundOther).mp (by rw [oriented]; rfl))

theorem applicableEdges_original (mixed : region.spec.pureInner = false)
    (found : region.spec.edges[k]? = some edge) :
    applicableEdges region.spec edge.left edge.right = [⟨k, false⟩] := by
  have bound : k < region.spec.edgeCount := (List.getElem?_eq_some_iff.mp found).1
  rw [applicableEdges, if_neg (by simp [mixed])]
  have each : ∀ edgeId ∈ List.range region.spec.edgeCount,
      (fPairApplicable region.spec edge.left edge.right edgeId).map (SApplicableEdge.mk edgeId)
        = if edgeId = k then some ⟨k, false⟩ else none := by
    intro edgeId listed
    rw [fPairApplicable_original scope independent mixed found (List.mem_range.mp listed)]
    split
    · rename_i same
      rw [same]
      rfl
    · rfl
  rw [List.filterMap_congr each]
  exact filterMap_range_single bound

theorem fBuildJoinRequest_original (found : region.spec.edges[k]? = some edge) :
    ∃ request, fBuildJoinRequest region.spec edge.left edge.right = some request ∧
      request.joinType = edge.joinType ∧ request.swapped = false ∧
      request.edgeIds = if region.spec.pureInner then [] else [k] := by
  cases inner : region.spec.pureInner with
  | true =>
    refine ⟨⟨.innerJoin, false, false, none, []⟩, ?_, (inner_of_pureInner inner found).symm, rfl, rfl⟩
    simp [fBuildJoinRequest, fDependencyApplicable, independent, inner]
  | false =>
    have single := applicableEdges_original scope independent inner found
    by_cases plain : edge.joinType = .innerJoin
    · refine ⟨⟨.innerJoin, false, false, none, [k]⟩, ?_, plain.symm, rfl, rfl⟩
      simp [fBuildJoinRequest, fDependencyApplicable, independent, inner, single, requestStep, found,
        plain]
    · refine ⟨⟨edge.joinType, false, false, edge.notinComparison, [k]⟩, ?_, rfl, rfl, rfl⟩
      simp [fBuildJoinRequest, fDependencyApplicable, independent, inner, single, requestStep, found,
        plain]

omit independent scope

/-- The eligibility set is the least set with the completed cover that is closed under the
collected rules, it lies in the subtree of the edge, and the dropped rules reject no cut. Without
lateral references each original cut is accepted and applies its own edge only, and the original
joins replay as a plan. -/
theorem eligibility_fixpoint (region : EnumeratedRegion V) (scope : region.WellScoped) :
    (∀ k edge, region.spec.edges[k]? = some edge →
      IsLeast (ClosedAbove edge.completedSes (region.rulesOf k edge)) edge.tes ∧
      edge.tes ⊆ edge.all ∧
      ∀ left right, CEdge.fApplicable { edge with conflictRules := region.rulesOf k edge } left right
        = edge.fApplicable left right) ∧
    (region.spec.hasDependencies = false →
      (∀ k edge, region.spec.edges[k]? = some edge →
        (∀ j other, region.spec.edges[j]? = some other →
          ((other.orientation edge.left edge.right).isSome = true ↔ j = k)) ∧
        ∃ request, fBuildJoinRequest region.spec edge.left edge.right = some request ∧
          request.joinType = edge.joinType ∧ request.swapped = false ∧
          request.edgeIds = if region.spec.pureInner then [] else [k]) ∧
      ∃ skeleton, fBuildBinarySkeletonPlan region.spec = some skeleton) := by
  constructor
  · intro k edge found
    obtain ⟨l, r, facts⟩ := exists_joinEdge found
    exact ⟨facts.absorbed.least, tes_subset scope found, facts.absorbed.fApplicable_eq⟩
  · intro independent
    constructor
    · intro k edge found
      exact ⟨fun j other foundOther => orientation_iff scope found foundOther,
        fBuildJoinRequest_original scope independent found⟩
    · refine skeleton_of_accepts region.built region.supported fun edge member => ?_
      obtain ⟨k, found⟩ := List.mem_iff_getElem?.mp member
      obtain ⟨request, accepted, -⟩ := fBuildJoinRequest_original scope independent found
      rw [accepted]
      rfl

end EnumeratedRegion

def outerThenInnerEnumerated : EnumeratedRegion Unit where
  nullRejecting := outerThenInnerRegion.nullRejecting
  root := outerThenInnerRegion.root
  spec := outerThenInnerRegion.spec
  built := outerThenInnerRegion.built
  supported := outerThenInnerRegion.supported

theorem eligibility_fixpoint_outerThenInner :
    ∃ skeleton, fBuildBinarySkeletonPlan outerThenInnerEnumerated.spec = some skeleton :=
  ((outerThenInnerEnumerated.eligibility_fixpoint
    (by unfold EnumeratedRegion.WellScoped; decide)).2 (by decide)).2

end JoinRegion
