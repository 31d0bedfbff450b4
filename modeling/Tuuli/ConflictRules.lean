import Tuuli.EdgeConsumption

/-!
What an applied edge proves about the nodes below it. A rule for a child that
the operator tables do not license to move says that the joined nodes reach
one side of the child only together with the other. Following the ancestors of
a cut edge upwards, these rules license moving the edge past each of them.
-/
namespace JoinRegion
open TreeSplits

variable {V : Type} {J : CBitSet}

theorem pbsIntersectIfNotDegenerate_spec (used : CBitSet) {available : CBitSet}
    (nonempty : available.Nonempty) :
    (pbsIntersectIfNotDegenerate used available).Nonempty ∧
      pbsIntersectIfNotDegenerate used available ⊆ available := by
  unfold pbsIntersectIfNotDegenerate
  split
  · exact ⟨nonempty, Finset.Subset.refl _⟩
  · rename_i some
    exact ⟨Finset.card_ne_zero.mp some, Finset.inter_subset_right⟩

theorem CConflictRule.reaches {rule : CConflictRule} {side : CBitSet}
    (satisfied : rule.satisfied J = true) (nonempty : rule.required.Nonempty)
    (inside : rule.required ⊆ side) (away : Disjoint J side) : Disjoint J rule.activate := by
  rcases of_decide_eq_true satisfied with quiet | required
  · exact quiet
  · obtain ⟨node, member⟩ := nonempty
    exact absurd (inside member) (Finset.disjoint_left.mp away (required member))

/-- The consequences of the rules of an edge over `l` and `r` that was applied to `J`. -/
structure RulesHold (region : MixedRegion V) (l r : SplitTree ℕ ℕ) (edge : CEdge V) (J : CBitSet) :
    Prop where
  leftAssociative : ∀ {c cl cr child}, SplitTree.HasNode c cl cr l → region.NodeEdge c cl cr child →
    fAssociative region.nullRejecting region.spec.atoms child edge = true ∨
      (Disjoint J cl.leaves → Disjoint J cr.leaves)
  rightAssociative : ∀ {c cl cr child}, SplitTree.HasNode c cl cr r → region.NodeEdge c cl cr child →
    fAssociative region.nullRejecting region.spec.atoms edge child = true ∨
      (Disjoint J cr.leaves → Disjoint J cl.leaves)
  rightAsscom : ∀ {c cl cr child}, SplitTree.HasNode c cl cr r → region.NodeEdge c cl cr child →
    fRightAsscom region.nullRejecting region.spec.atoms edge child = true ∨
      (Disjoint J cl.leaves → Disjoint J cr.leaves)

namespace MixedRegion

variable {region : MixedRegion V} {k : ℕ} {l r : SplitTree ℕ ℕ} {edge child : CEdge V}
  {A B : CBitSet} (facts : region.NodeEdge k l r edge)

include facts

theorem NodeEdge.left_nonempty : edge.left.Nonempty :=
  facts.left ▸ l.leaves_nonempty

theorem NodeEdge.right_nonempty : edge.right.Nonempty :=
  facts.right ▸ r.leaves_nonempty

theorem NodeEdge.all_eq : edge.all = l.leaves ∪ r.leaves := by
  rw [CEdge.all, facts.left, facts.right]

omit facts in
theorem mem_take_of_below (region : MixedRegion V) {c : ℕ} {cl cr : SplitTree ℕ ℕ}
    (h : SplitTree.HasNode k l r region.tree)
    (below : SplitTree.HasNode c cl cr l ∨ SplitTree.HasNode c cl cr r)
    (facts : region.NodeEdge c cl cr child) : child ∈ region.spec.edges.take k := by
  have smaller : c < k := CExpression.regionTree_keys_lt h c
    (below.imp (fun left => left.mem_keys) (fun right => right.mem_keys))
  refine List.mem_iff_getElem?.mpr ⟨c, ?_⟩
  rw [List.getElem?_take_of_lt smaller]
  exact facts.found

theorem NodeEdge.rule_satisfied (applicable : edge.fApplicable A B = true)
    (earlier : child ∈ region.spec.edges.take k) {rule : CConflictRule}
    (generated : rule ∈ conflictRulesFor region.nullRejecting region.spec.atoms edge child) :
    rule.satisfied (A ∪ B) = true := by
  obtain ⟨-, covered, -, -, kept, -⟩ := CEdge.fApplicable_spec applicable
  rcases facts.rules child earlier rule generated with member | absorbed
  · exact kept rule member
  · exact decide_eq_true (.inr (absorbed.trans covered))

theorem NodeEdge.rule_reaches {activate side : CBitSet} (applicable : edge.fApplicable A B = true)
    (earlier : child ∈ region.spec.edges.take k) (nonempty : side.Nonempty)
    (generated : ⟨activate, pbsIntersectIfNotDegenerate child.ses side⟩ ∈ conflictRulesFor
      region.nullRejecting region.spec.atoms edge child) (away : Disjoint (A ∪ B) side) :
    Disjoint (A ∪ B) activate := by
  have satisfied := facts.rule_satisfied applicable earlier generated
  have required := pbsIntersectIfNotDegenerate_spec child.ses nonempty
  exact CConflictRule.reaches satisfied required.1 required.2 away

omit facts

theorem rulesHold_of_applied (region : MixedRegion V) (h : SplitTree.HasNode k l r region.tree)
    (facts : region.NodeEdge k l r edge) (applicable : edge.fApplicable A B = true) :
    RulesHold region l r edge (A ∪ B) := by
  have sides : Disjoint edge.left edge.right := by
    rw [facts.left, facts.right]
    exact h.distinct region.tree_distinct
  have inLeft : ∀ {c cl cr child}, SplitTree.HasNode c cl cr l → region.NodeEdge c cl cr child →
      child.all ⊆ edge.left := by
    intro c cl cr child below child'
    rw [child'.all_eq, facts.left]
    exact below.leaves_subset
  have inRight : ∀ {c cl cr child}, SplitTree.HasNode c cl cr r → region.NodeEdge c cl cr child →
      ¬ child.all ⊆ edge.left ∧ child.all ⊆ edge.right := by
    intro c cl cr child below child'
    have inside : child.all ⊆ edge.right := by
      rw [child'.all_eq, facts.right]
      exact below.leaves_subset
    refine ⟨fun both => ?_, inside⟩
    obtain ⟨node, member⟩ := child'.left_nonempty
    have inAll : node ∈ child.all := Finset.mem_union_left _ member
    exact Finset.disjoint_left.mp sides (both inAll) (inside inAll)
  constructor
  · intro c cl cr child below child'
    have earlier := region.mem_take_of_below h (.inl below) child'
    rw [← child'.left, ← child'.right]
    by_cases licensed : fAssociative region.nullRejecting region.spec.atoms child edge = true
    · exact .inl licensed
    · exact .inr (facts.rule_reaches applicable earlier child'.left_nonempty
        (by simp [conflictRulesFor, inLeft below child', licensed]))
  · intro c cl cr child below child'
    have earlier := region.mem_take_of_below h (.inr below) child'
    rw [← child'.left, ← child'.right]
    by_cases licensed : fAssociative region.nullRejecting region.spec.atoms edge child = true
    · exact .inl licensed
    · exact .inr (facts.rule_reaches applicable earlier child'.right_nonempty
        (by simp [conflictRulesFor, inRight below child', licensed]))
  · intro c cl cr child below child'
    have earlier := region.mem_take_of_below h (.inr below) child'
    rw [← child'.left, ← child'.right]
    by_cases licensed : fRightAsscom region.nullRejecting region.spec.atoms edge child = true
    · exact .inl licensed
    · exact .inr (facts.rule_reaches applicable earlier child'.left_nonempty
        (by simp [conflictRulesFor, inRight below child', licensed]))

def NoFullOuter (region : MixedRegion V) : Prop :=
  ∀ (k : ℕ) (edge : CEdge V), region.spec.edges[k]? = some edge → edge.joinType ≠ .fullOuterJoin

/-- The nodes `K` split are applied within `K`: their eligibility sets lie in it, and their
rules hold of the nodes they joined. -/
def Applied (region : MixedRegion V) (K : CBitSet) : Prop :=
  ∀ {k l r edge}, SplitTree.HasNode k l r region.tree → region.NodeEdge k l r edge →
    k ∈ region.tree.splitKeys K → edge.tes ⊆ K ∧
      ∃ J ⊆ K, ¬ Disjoint J l.leaves ∧ ¬ Disjoint J r.leaves ∧ RulesHold region l r edge J

end MixedRegion

variable {tree : JoinTree}

theorem JoinTree.Accepted.exists_cut {spec : CJoinRegionSpec V} (mixed : spec.pureInner = false)
    (accepted : tree.Accepted spec) {edgeId : ℕ} (used : edgeId ∈ tree.usedEdges spec) :
    ∃ edge A B, spec.edges[edgeId]? = some edge ∧ edge.fApplicable A B = true ∧
      A ∪ B ⊆ tree.nodes := by
  induction tree with
  | leaf node => simp [usedEdges, cuts] at used
  | join l r ihl ihr =>
    rw [usedEdges_join, List.mem_append, List.mem_append] at used
    rcases used with (left | right) | cut
    · obtain ⟨edge, A, B, found, applicable, inside⟩ := ihl accepted.1 left
      exact ⟨edge, A, B, found, applicable, inside.trans Finset.subset_union_left⟩
    · obtain ⟨edge, A, B, found, applicable, inside⟩ := ihr accepted.2.1 right
      exact ⟨edge, A, B, found, applicable, inside.trans Finset.subset_union_right⟩
    · obtain ⟨edge, swapped, found, oriented⟩ :=
        (edgesOf_spec mixed accepted.2.2.2).2.2 edgeId cut
      rcases edge.orientation_spec oriented with ⟨-, forward⟩ | ⟨-, backward⟩
      · exact ⟨edge, _, _, found, forward, Finset.Subset.refl _⟩
      · exact ⟨edge, _, _, found, backward, (Finset.union_comm r.nodes l.nodes).subset⟩

theorem JoinTree.Accepted.applied {region : MixedRegion V} (accepted : tree.Accepted region.spec) :
    region.Applied tree.nodes := by
  intro k l r edge h facts splits
  have used := accepted.usedEdges_perm.mem_iff.mpr splits
  obtain ⟨edge', A, B, found, applicable, inside⟩ := accepted.exists_cut region.mixed used
  obtain rfl : edge = edge' := Option.some.inj (facts.found.symm.trans found)
  obtain ⟨-, covered, -⟩ := CEdge.fApplicable_spec applicable
  refine ⟨covered.trans inside, A ∪ B, inside, ?_, ?_, region.rulesHold_of_applied h facts applicable⟩
  · exact not_disjoint_of_subset covered (facts.left ▸ facts.meetsLeft)
  · exact not_disjoint_of_subset covered (facts.right ▸ facts.meetsRight)

section Tables
variable {nullRejecting : CPredicate V → CColRefSet → Bool} {atoms : List CAtom}
  {left right : CEdge V}

theorem fAssociative_iff (notFull : left.joinType ≠ .fullOuterJoin)
    (notFull' : right.joinType ≠ .fullOuterJoin) :
    fAssociative nullRejecting atoms left right = true ↔
      left.joinType = .innerJoin ∨ (left.joinType = .leftOuterJoin ∧
        right.joinType = .leftOuterJoin ∧
        fNullRejecting nullRejecting atoms right right.left = true) := by
  cases typeL : left.joinType <;> cases typeR : right.joinType <;>
    simp_all [fAssociative, fInnerJoin]

theorem fRightAsscom_iff (notFull : left.joinType ≠ .fullOuterJoin) :
    fRightAsscom nullRejecting atoms left right = true ↔
      left.joinType = .innerJoin ∧ right.joinType = .innerJoin := by
  simp [fRightAsscom, fInnerJoin, notFull]

theorem fAssociative_trans {middle : CEdge V} (fullL : left.joinType ≠ .fullOuterJoin)
    (fullM : middle.joinType ≠ .fullOuterJoin) (fullR : right.joinType ≠ .fullOuterJoin)
    (lower : fAssociative nullRejecting atoms left middle = true)
    (upper : fAssociative nullRejecting atoms middle right = true) :
    fAssociative nullRejecting atoms left right = true := by
  refine (fAssociative_iff fullL fullR).mpr ?_
  rcases (fAssociative_iff fullL fullM).mp lower with inner | ⟨outerL, outerM, -⟩
  · exact .inl inner
  · rcases (fAssociative_iff fullM fullR).mp upper with innerM | ⟨-, outerR, rejects⟩
    · exact absurd (innerM.symm.trans outerM) (by simp)
    · exact .inr ⟨outerL, outerR, rejects⟩

end Tables

/-- The cut into `L` and `R` is made by the edge of node `b`, with `L` on its left. -/
structure SeparatedBy (region : MixedRegion V) (L R : CBitSet) (b : ℕ) (bl br : SplitTree ℕ ℕ)
    (eb : CEdge V) : Prop where
  node : SplitTree.HasNode b bl br region.tree
  edge : region.NodeEdge b bl br eb
  leftMeets : ¬ Disjoint L bl.leaves
  rightMeets : ¬ Disjoint R br.leaves
  leftAway : Disjoint L br.leaves
  rightAway : Disjoint R bl.leaves
  appliedLeft : region.Applied L
  appliedRight : region.Applied R

variable {s t : CBitSet}

theorem exists_lowest {b : ℕ} {bl br u : SplitTree ℕ ℕ} (h : SplitTree.HasNode b bl br u)
    (meets : ¬ Disjoint J u.leaves) :
    ¬ Disjoint J (bl.leaves ∪ br.leaves) ∨ ∃ c cl cr, SplitTree.HasNode c cl cr u ∧
      ((SplitTree.HasNode b bl br cl ∧ Disjoint J cl.leaves ∧ ¬ Disjoint J cr.leaves) ∨
        (SplitTree.HasNode b bl br cr ∧ Disjoint J cr.leaves ∧ ¬ Disjoint J cl.leaves)) := by
  induction u with
  | leaf node => exact absurd h id
  | node k l r ihl ihr =>
    have either : ¬ Disjoint J l.leaves ∨ ¬ Disjoint J r.leaves := by
      by_contra none
      simp only [not_or, not_not] at none
      exact meets (Finset.disjoint_union_right.mpr none)
    rcases h with ⟨rfl, rfl, rfl⟩ | left | right
    · exact .inl meets
    · by_cases reached : Disjoint J l.leaves
      · exact .inr ⟨k, l, r, .inl ⟨rfl, rfl, rfl⟩,
          .inl ⟨left, reached, either.resolve_left (not_not.mpr reached)⟩⟩
      · rcases ihl left reached with found | ⟨c, cl, cr, inside, sides⟩
        · exact .inl found
        · exact .inr ⟨c, cl, cr, .inr (.inl inside), sides⟩
    · by_cases reached : Disjoint J r.leaves
      · exact .inr ⟨k, l, r, .inl ⟨rfl, rfl, rfl⟩,
          .inr ⟨right, reached, either.resolve_right (not_not.mpr reached)⟩⟩
      · rcases ihr right reached with found | ⟨c, cl, cr, inside, sides⟩
        · exact .inl found
        · exact .inr ⟨c, cl, cr, .inr (.inr inside), sides⟩

theorem not_disjoint_right_of_subset {u : CBitSet} (sub : t ⊆ u) (meets : ¬ Disjoint s t) :
    ¬ Disjoint s u :=
  fun disjoint => meets (disjoint.mono_right sub)

theorem meets_other (meets : ¬ Disjoint J (s ∪ t)) (away : Disjoint J s) : ¬ Disjoint J t :=
  fun other => meets (Finset.disjoint_union_right.mpr ⟨away, other⟩)

/-- What the tables license for an ancestor `v` of `b`: on the left of `v` and split by `R`,
on the right and split by `L`, on the right and split by `R`. -/
structure Licensed (region : MixedRegion V) (L R : CBitSet) (b : ℕ) (bl br : SplitTree ℕ ℕ)
    (eb : CEdge V) (v : ℕ) (vl vr : SplitTree ℕ ℕ) (ev : CEdge V) : Prop where
  leftByRight : SplitTree.HasNode b bl br vl → v ∈ region.tree.splitKeys R →
    fAssociative region.nullRejecting region.spec.atoms eb ev = true
  rightByLeft : SplitTree.HasNode b bl br vr → v ∈ region.tree.splitKeys L →
    fAssociative region.nullRejecting region.spec.atoms ev eb = true
  rightByRight : SplitTree.HasNode b bl br vr → v ∈ region.tree.splitKeys R →
    fRightAsscom region.nullRejecting region.spec.atoms ev eb = true

section Chain
variable {region : MixedRegion V} {L R : CBitSet} {b : ℕ} {bl br : SplitTree ℕ ℕ} {eb : CEdge V}
  {u vl vr : SplitTree ℕ ℕ} {v : ℕ} {ev : CEdge V}

theorem splits_above {K : CBitSet} {c : ℕ} {cl cr : SplitTree ℕ ℕ}
    (h : SplitTree.HasNode c cl cr region.tree) (meetsL : ¬ Disjoint K cl.leaves)
    (meetsR : ¬ Disjoint K cr.leaves) : c ∈ region.tree.splitKeys K :=
  SplitTree.mem_splitKeys.mpr ⟨cl, cr, h, meetsL, meetsR⟩

theorem SeparatedBy.left_meets_above (sep : SeparatedBy region L R b bl br eb)
    (above : SplitTree.HasNode b bl br u) : ¬ Disjoint L u.leaves :=
  not_disjoint_right_of_subset (Finset.subset_union_left.trans above.leaves_subset) sep.leftMeets

theorem SeparatedBy.right_meets_above (sep : SeparatedBy region L R b bl br eb)
    (above : SplitTree.HasNode b bl br u) : ¬ Disjoint R u.leaves :=
  not_disjoint_right_of_subset (Finset.subset_union_right.trans above.leaves_subset) sep.rightMeets

theorem SeparatedBy.licensed_step (notFull : region.NoFullOuter)
    (sep : SeparatedBy region L R b bl br eb) (h : SplitTree.HasNode v vl vr region.tree)
    (facts : region.NodeEdge v vl vr ev)
    (below : ∀ {c cl cr ec}, SplitTree.HasNode c cl cr vl ∨ SplitTree.HasNode c cl cr vr →
      region.NodeEdge c cl cr ec → Licensed region L R b bl br eb c cl cr ec) :
    Licensed region L R b bl br eb v vl vr ev := by
  have fullB := notFull _ _ sep.edge.found
  have fullV := notFull _ _ facts.found
  constructor
  · intro inLeft splits
    obtain ⟨-, J, inside, meets, -, rules⟩ := sep.appliedRight h facts splits
    rcases exists_lowest inLeft meets with atB | ⟨c, cl, cr, hc, side⟩
    · have awayL : Disjoint J bl.leaves := sep.rightAway.mono_left inside
      exact (rules.leftAssociative inLeft sep.edge).resolve_right fun blocked =>
        meets_other atB awayL (blocked awayL)
    · obtain ⟨ec, child⟩ := region.nodeEdge_of_node (h.trans (.inl hc))
      have known := below (.inl hc) child
      have fullC := notFull _ _ child.found
      rcases side with ⟨inCl, away, reach⟩ | ⟨inCr, away, reach⟩
      · have splitC := splits_above (h.trans (.inl hc)) (sep.right_meets_above inCl)
          (not_disjoint_of_subset inside reach)
        have licensed := (rules.leftAssociative hc child).resolve_right fun blocked =>
          reach (blocked away)
        exact fAssociative_trans fullB fullC fullV (known.leftByRight inCl splitC) licensed
      · have splitC := splits_above (h.trans (.inl hc)) (not_disjoint_of_subset inside reach)
          (sep.right_meets_above inCr)
        have both := (fRightAsscom_iff fullC).mp (known.rightByRight inCr splitC)
        exact (fAssociative_iff fullB fullV).mpr (.inl both.2)
  · intro inRight splits
    obtain ⟨-, J, inside, -, meets, rules⟩ := sep.appliedLeft h facts splits
    rcases exists_lowest inRight meets with atB | ⟨c, cl, cr, hc, side⟩
    · have awayR : Disjoint J br.leaves := sep.leftAway.mono_left inside
      rw [Finset.union_comm] at atB
      exact (rules.rightAssociative inRight sep.edge).resolve_right fun blocked =>
        meets_other atB awayR (blocked awayR)
    · obtain ⟨ec, child⟩ := region.nodeEdge_of_node (h.trans (.inr hc))
      have known := below (.inr hc) child
      have fullC := notFull _ _ child.found
      rcases side with ⟨inCl, away, reach⟩ | ⟨inCr, away, reach⟩
      · have licensed := (rules.rightAsscom hc child).resolve_right fun blocked =>
          reach (blocked away)
        exact (fAssociative_iff fullV fullB).mpr (.inl ((fRightAsscom_iff fullV).mp licensed).1)
      · have splitC := splits_above (h.trans (.inr hc)) (not_disjoint_of_subset inside reach)
          (sep.left_meets_above inCr)
        have licensed := (rules.rightAssociative hc child).resolve_right fun blocked =>
          reach (blocked away)
        exact fAssociative_trans fullV fullC fullB licensed (known.rightByLeft inCr splitC)
  · intro inRight splits
    obtain ⟨-, J, inside, -, meets, rules⟩ := sep.appliedRight h facts splits
    rcases exists_lowest inRight meets with atB | ⟨c, cl, cr, hc, side⟩
    · have awayL : Disjoint J bl.leaves := sep.rightAway.mono_left inside
      exact (rules.rightAsscom inRight sep.edge).resolve_right fun blocked =>
        meets_other atB awayL (blocked awayL)
    · obtain ⟨ec, child⟩ := region.nodeEdge_of_node (h.trans (.inr hc))
      have known := below (.inr hc) child
      have fullC := notFull _ _ child.found
      refine (fRightAsscom_iff fullV).mpr ?_
      rcases side with ⟨inCl, away, reach⟩ | ⟨inCr, away, reach⟩
      · have splitC := splits_above (h.trans (.inr hc)) (sep.right_meets_above inCl)
          (not_disjoint_of_subset inside reach)
        have upper := (fRightAsscom_iff fullV).mp <|
          (rules.rightAsscom hc child).resolve_right fun blocked => reach (blocked away)
        rcases (fAssociative_iff fullB fullC).mp (known.leftByRight inCl splitC) with
          innerB | ⟨-, outerC, -⟩
        · exact ⟨upper.1, innerB⟩
        · exact absurd (upper.2.symm.trans outerC) (by simp)
      · have splitC := splits_above (h.trans (.inr hc)) (not_disjoint_of_subset inside reach)
          (sep.right_meets_above inCr)
        have lower := (fRightAsscom_iff fullC).mp (known.rightByRight inCr splitC)
        have licensed := (rules.rightAssociative hc child).resolve_right fun blocked =>
          reach (blocked away)
        rcases (fAssociative_iff fullV fullC).mp licensed with innerV | ⟨-, outerC, -⟩
        · exact ⟨innerV, lower.2⟩
        · exact absurd (lower.1.symm.trans outerC) (by simp)

theorem SeparatedBy.licensed (notFull : region.NoFullOuter)
    (sep : SeparatedBy region L R b bl br eb)
    (inTree : ∀ {k l r}, SplitTree.HasNode k l r u → SplitTree.HasNode k l r region.tree)
    (h : SplitTree.HasNode v vl vr u) (facts : region.NodeEdge v vl vr ev) :
    Licensed region L R b bl br eb v vl vr ev := by
  induction u generalizing v vl vr ev with
  | leaf node => exact absurd h id
  | node k l r ihl ihr =>
    have left : ∀ {c cl cr ec}, SplitTree.HasNode c cl cr l → region.NodeEdge c cl cr ec →
        Licensed region L R b bl br eb c cl cr ec :=
      fun hc child => ihl (fun inner => inTree (.inr (.inl inner))) hc child
    have right : ∀ {c cl cr ec}, SplitTree.HasNode c cl cr r → region.NodeEdge c cl cr ec →
        Licensed region L R b bl br eb c cl cr ec :=
      fun hc child => ihr (fun inner => inTree (.inr (.inr inner))) hc child
    rcases h with ⟨rfl, rfl, rfl⟩ | inLeft | inRight
    · refine SeparatedBy.licensed_step notFull sep (inTree (.inl ⟨rfl, rfl, rfl⟩)) facts ?_
      rintro c cl cr ec (hc | hc) child
      · exact left hc child
      · exact right hc child
    · exact left inLeft facts
    · exact right inRight facts

end Chain

end JoinRegion
