import Mathlib.Tactic.IntervalCases
import Tuuli.ConflictRules
import Tuuli.RegionEval

/-!
Reordering soundness of the conflict detector. Restricting the original tree
to the two sides of an accepted cut and joining the results with the cut's edge
gives the restriction to the union: the edge is moved up past each ancestor by
the law the tables license for it.
-/
namespace JoinRegion
open BagJoins TreeSplits

variable {V : Type} {region : MixedRegion V} {L R : CBitSet} {b : ℕ} {bl br : SplitTree ℕ ℕ}
  {eb : CEdge V}

def MixedRegion.Scoped (region : MixedRegion V) : Prop :=
  ∀ edge ∈ region.spec.edges,
    edge.predicate.usedColumns ⊆ pcrsNodes region.spec.atoms edge.all

def MixedRegion.LeftOperators (region : MixedRegion V) : Prop :=
  ∀ edge ∈ region.spec.edges, (leftKind edge.joinType).isSome = true

variable {k : ℕ} {edge : CEdge V} {s : CBitSet}

theorem MixedRegion.LeftOperators.noFullOuter (kinds : region.LeftOperators) :
    region.NoFullOuter := by
  intro k edge found full
  have known := kinds edge (List.mem_of_getElem? found)
  rw [full] at known
  simp [leftKind] at known

theorem MixedRegion.LeftOperators.kind (kinds : region.LeftOperators)
    (found : region.spec.edges[k]? = some edge) : ∃ kind, leftKind edge.joinType = some kind :=
  Option.isSome_iff_exists.mp (kinds edge (List.mem_of_getElem? found))

theorem MixedRegion.Scoped.reads_within (scope : region.Scoped) {l r : SplitTree ℕ ℕ}
    (facts : region.NodeEdge k l r edge) {K : CBitSet} (inside : edge.tes ⊆ K) :
    edge.predicate.usedColumns
      ⊆ pcrsNodes region.spec.atoms (K ∩ (l.leaves ∪ r.leaves)) := by
  intro c used
  obtain ⟨node, leaf, column⟩ :=
    mem_pcrsNodes.mp (scope edge (List.mem_of_getElem? facts.found) used)
  rw [facts.all_eq] at leaf
  have bound : node < region.spec.atoms.length := by
    by_contra outside
    rw [outputColumns, List.getElem?_eq_none (Nat.le_of_not_lt outside)] at column
    simp at column
  have covered : node ∈ edge.ses := by
    rw [facts.ses, pbsPredicateCover, Finset.mem_filter, Finset.mem_range]
    exact ⟨bound, Finset.not_disjoint_iff.mpr ⟨c, used, column⟩⟩
  exact mem_pcrsNodes.mpr
    ⟨node, Finset.mem_inter.mpr ⟨inside (facts.covers covered), leaf⟩, column⟩

theorem columns_away {atoms : List CAtom} (distinct : ColumnsDisjoint atoms) {e : CBitSet}
    {used : CColRefSet} (scope : used ⊆ pcrsNodes atoms s) (away : Disjoint e s) :
    Disjoint (pcrsNodes atoms e : Set ℕ) used :=
  (pcrsNodes_disjoint distinct away).mono_right (Finset.coe_subset.mpr scope)

/-- A cut made by the edge of `b`: the original nodes split by the whole are those split by
one of the sides, and `b`. -/
structure CutBy (region : MixedRegion V) (L R : CBitSet) (b : ℕ) (bl br : SplitTree ℕ ℕ)
    (eb : CEdge V) : Prop extends SeparatedBy region L R b bl br eb where
  apart : Disjoint L R
  eligible : eb.tes ⊆ L ∪ R
  once : ∀ k ∈ region.tree.splitKeys (L ∪ R), k ≠ b →
    k ∈ region.tree.splitKeys L ∨ k ∈ region.tree.splitKeys R
  exclusive : ∀ k ∈ region.tree.splitKeys L, k ∉ region.tree.splitKeys R

/-- What the correctness of reordering assumes of the region and the database. -/
structure Assumptions (region : MixedRegion V) (db : Database V) : Prop where
  nullRejection : NullRejectionSound region.nullRejecting
  distinct : ColumnsDisjoint region.spec.atoms
  scope : region.Scoped
  kinds : region.LeftOperators
  valid : db.Valid region.spec.atoms

section Passing
variable {db : Database V} {v : ℕ} {ul ur : SplitTree ℕ ℕ} {ev : CEdge V}
  (assume : Assumptions region db) (cut : CutBy region L R b bl br eb)

include assume cut

theorem CutBy.reads :
    eb.predicate.usedColumns
      ⊆ pcrsNodes region.spec.atoms ((L ∪ R) ∩ (bl.leaves ∪ br.leaves)) :=
  assume.scope.reads_within cut.edge cut.eligible

variable (h : SplitTree.HasNode v ul ur region.tree) (facts : region.NodeEdge v ul ur ev)

include h facts

theorem CutBy.pass_left_by_left (below : SplitTree.HasNode b bl br ul)
    (splits : v ∈ region.tree.splitKeys L) (reached : ¬ Disjoint L ur.leaves) :
    joinRows ev.joinType ev.predicate
        (joinRows eb.joinType eb.predicate (evalOn region.spec db L ul) (evalOn region.spec db R ul))
        (evalOn region.spec db L ur)
      = joinRows eb.joinType eb.predicate
        (joinRows ev.joinType ev.predicate (evalOn region.spec db L ul) (evalOn region.spec db L ur))
        (evalOn region.spec db R ul) := by
  obtain ⟨kindB, knownB⟩ := assume.kinds.kind cut.edge.found
  obtain ⟨kindV, knownV⟩ := assume.kinds.kind facts.found
  have readsV := assume.scope.reads_within facts (cut.appliedLeft h facts splits).1
  have sides := h.distinct region.tree_distinct
  have inside : (L ∪ R) ∩ (bl.leaves ∪ br.leaves) ⊆ ul.leaves :=
    Finset.inter_subset_right.trans below.leaves_subset
  have rowsB := evalOn_rows region.spec assume.valid (cut.right_meets_above below)
  have rowsV := evalOn_rows region.spec assume.valid reached
  simp only [joinRows_of_leftKind knownB, joinRows_of_leftKind knownV]
  refine leftJoin_left_asscom kindB kindV eb.predicate.reads ev.predicate.reads
    (columns_away assume.distinct (cut.reads assume) ?_)
    (columns_away assume.distinct readsV ?_)
    (pcrsNodes_disjoint assume.distinct ?_) rowsB rowsV
  · exact sides.symm.mono Finset.inter_subset_right inside
  · exact cut.apart.symm.mono Finset.inter_subset_left Finset.inter_subset_left
  · exact cut.apart.symm.mono Finset.inter_subset_left Finset.inter_subset_left

theorem CutBy.pass_left_by_right (below : SplitTree.HasNode b bl br ul)
    (splits : v ∈ region.tree.splitKeys R) (reached : ¬ Disjoint R ur.leaves) :
    joinRows ev.joinType ev.predicate
        (joinRows eb.joinType eb.predicate (evalOn region.spec db L ul) (evalOn region.spec db R ul))
        (evalOn region.spec db R ur)
      = joinRows eb.joinType eb.predicate (evalOn region.spec db L ul)
        (joinRows ev.joinType ev.predicate (evalOn region.spec db R ul)
          (evalOn region.spec db R ur)) := by
  have notFull := assume.kinds.noFullOuter
  obtain ⟨kindV, knownV⟩ := assume.kinds.kind facts.found
  have readsV := assume.scope.reads_within facts (cut.appliedRight h facts splits).1
  have sides := h.distinct region.tree_distinct
  have inside : (L ∪ R) ∩ (bl.leaves ∪ br.leaves) ⊆ ul.leaves :=
    Finset.inter_subset_right.trans below.leaves_subset
  have rowsA := evalOn_rows region.spec assume.valid (cut.left_meets_above below)
  have rowsV := evalOn_rows region.spec assume.valid reached
  have freeB : Disjoint (pcrsNodes region.spec.atoms (R ∩ ur.leaves) : Set ℕ)
      eb.predicate.usedColumns := columns_away assume.distinct (cut.reads assume)
    (sides.symm.mono Finset.inter_subset_right inside)
  have freeV : Disjoint (pcrsNodes region.spec.atoms (L ∩ ul.leaves) : Set ℕ)
      ev.predicate.usedColumns := columns_away assume.distinct readsV
    (cut.apart.mono Finset.inter_subset_left Finset.inter_subset_left)
  have licensed := (SeparatedBy.licensed notFull cut.toSeparatedBy id h facts).leftByRight
    below splits
  rcases (fAssociative_iff (notFull _ _ cut.edge.found) (notFull _ _ facts.found)).mp licensed
    with inner | ⟨outerB, outerV, answer⟩
  · simp only [joinRows_of_leftKind knownV]
    simp only [inner, joinRows]
    exact leftJoin_inner_assoc kindV eb.predicate.reads ev.predicate.reads freeB freeV rowsA rowsV
  · have rejects : RejectsNulls (pcrsNodes region.spec.atoms (R ∩ ul.leaves) : Set ℕ)
        ev.predicate.value := by
      refine rejects_of_fNullRejecting assume.nullRejection assume.distinct
        (f := R ∩ ur.leaves) answer ?_ ?_ ?_
      · rw [facts.left]
        exact Finset.inter_subset_right
      · rw [facts.left]
        exact sides.mono_right Finset.inter_subset_right
      · rw [← Finset.inter_union_distrib_left]
        exact readsV
    simp only [outerB, outerV, joinRows]
    refine leftJoin_outer_assoc eb.predicate.reads ev.predicate.reads freeB freeV
      (pcrsNodes_disjoint assume.distinct ?_) (pcrsNodes_disjoint assume.distinct ?_)
      rejects rowsA rowsV
    · exact cut.apart.mono Finset.inter_subset_left Finset.inter_subset_left
    · exact sides.mono Finset.inter_subset_right Finset.inter_subset_right

theorem CutBy.pass_right_by_left (below : SplitTree.HasNode b bl br ur)
    (splits : v ∈ region.tree.splitKeys L) (reached : ¬ Disjoint L ul.leaves) :
    joinRows ev.joinType ev.predicate (evalOn region.spec db L ul)
        (joinRows eb.joinType eb.predicate (evalOn region.spec db L ur)
          (evalOn region.spec db R ur))
      = joinRows eb.joinType eb.predicate
        (joinRows ev.joinType ev.predicate (evalOn region.spec db L ul) (evalOn region.spec db L ur))
        (evalOn region.spec db R ur) := by
  have notFull := assume.kinds.noFullOuter
  obtain ⟨kindB, knownB⟩ := assume.kinds.kind cut.edge.found
  have readsV := assume.scope.reads_within facts (cut.appliedLeft h facts splits).1
  have sides := h.distinct region.tree_distinct
  have inside : (L ∪ R) ∩ (bl.leaves ∪ br.leaves) ⊆ ur.leaves :=
    Finset.inter_subset_right.trans below.leaves_subset
  have rowsA := evalOn_rows region.spec assume.valid reached
  have rowsD := evalOn_rows region.spec assume.valid (cut.right_meets_above below)
  have freeB : Disjoint (pcrsNodes region.spec.atoms (L ∩ ul.leaves) : Set ℕ)
      eb.predicate.usedColumns := columns_away assume.distinct (cut.reads assume)
    (sides.mono Finset.inter_subset_right inside)
  have freeV : Disjoint (pcrsNodes region.spec.atoms (R ∩ ur.leaves) : Set ℕ)
      ev.predicate.usedColumns := columns_away assume.distinct readsV
    (cut.apart.symm.mono Finset.inter_subset_left Finset.inter_subset_left)
  have licensed := (SeparatedBy.licensed notFull cut.toSeparatedBy id h facts).rightByLeft
    below splits
  rcases (fAssociative_iff (notFull _ _ facts.found) (notFull _ _ cut.edge.found)).mp licensed
    with inner | ⟨outerV, outerB, answer⟩
  · simp only [joinRows_of_leftKind knownB]
    simp only [inner, joinRows]
    exact (leftJoin_inner_assoc kindB ev.predicate.reads eb.predicate.reads freeV freeB
      rowsA rowsD).symm
  · have ownSides : (L ∪ R) ∩ (bl.leaves ∪ br.leaves)
        ⊆ (L ∩ bl.leaves) ∪ (R ∩ br.leaves) := by
      intro node member
      simp only [Finset.mem_inter, Finset.mem_union] at member ⊢
      rcases member with ⟨inL | inR, inBl | inBr⟩
      · exact .inl ⟨inL, inBl⟩
      · exact absurd inBr (Finset.disjoint_left.mp cut.leftAway inL)
      · exact absurd inBl (Finset.disjoint_left.mp cut.rightAway inR)
      · exact .inr ⟨inR, inBr⟩
    have bSides := cut.node.distinct region.tree_distinct
    have rejects : RejectsNulls (pcrsNodes region.spec.atoms (L ∩ bl.leaves) : Set ℕ)
        eb.predicate.value := by
      refine rejects_of_fNullRejecting assume.nullRejection assume.distinct
        (f := R ∩ br.leaves) answer ?_ ?_ ((cut.reads assume).trans (pcrsNodes_mono ownSides))
      · rw [cut.edge.left]
        exact Finset.inter_subset_right
      · rw [cut.edge.left]
        exact bSides.mono_right Finset.inter_subset_right
    have wider : L ∩ bl.leaves ⊆ L ∩ ur.leaves := Finset.inter_subset_inter_left
      (Finset.subset_union_left.trans below.leaves_subset)
    simp only [outerV, outerB, joinRows]
    refine (leftJoin_outer_assoc ev.predicate.reads eb.predicate.reads freeV freeB
      (pcrsNodes_disjoint assume.distinct ?_) (pcrsNodes_disjoint assume.distinct ?_)
      (rejects.mono (Finset.coe_subset.mpr (pcrsNodes_mono wider))) rowsA rowsD).symm
    · exact sides.mono Finset.inter_subset_right Finset.inter_subset_right
    · exact cut.apart.mono Finset.inter_subset_left Finset.inter_subset_left

theorem CutBy.pass_right_by_right (below : SplitTree.HasNode b bl br ur)
    (splits : v ∈ region.tree.splitKeys R) (reached : ¬ Disjoint R ul.leaves) :
    joinRows ev.joinType ev.predicate (evalOn region.spec db R ul)
        (joinRows eb.joinType eb.predicate (evalOn region.spec db L ur)
          (evalOn region.spec db R ur))
      = joinRows eb.joinType eb.predicate (evalOn region.spec db L ur)
        (joinRows ev.joinType ev.predicate (evalOn region.spec db R ul)
          (evalOn region.spec db R ur)) := by
  have notFull := assume.kinds.noFullOuter
  have readsV := assume.scope.reads_within facts (cut.appliedRight h facts splits).1
  have sides := h.distinct region.tree_distinct
  have inside : (L ∪ R) ∩ (bl.leaves ∪ br.leaves) ⊆ ur.leaves :=
    Finset.inter_subset_right.trans below.leaves_subset
  have rowsA := evalOn_rows region.spec assume.valid reached
  have rowsB := evalOn_rows region.spec assume.valid (cut.left_meets_above below)
  have rowsD := evalOn_rows region.spec assume.valid (cut.right_meets_above below)
  have licensed := (SeparatedBy.licensed notFull cut.toSeparatedBy id h facts).rightByRight
    below splits
  obtain ⟨innerV, innerB⟩ := (fRightAsscom_iff (notFull _ _ facts.found)).mp licensed
  simp only [innerV, innerB, joinRows]
  refine leftJoin_inner_right_asscom ev.predicate.reads eb.predicate.reads
    (columns_away assume.distinct readsV ?_)
    (columns_away assume.distinct (cut.reads assume) ?_)
    (pcrsNodes_disjoint assume.distinct ?_) (pcrsNodes_disjoint assume.distinct ?_)
    rowsA rowsB rowsD
  · exact cut.apart.mono Finset.inter_subset_left Finset.inter_subset_left
  · exact sides.mono Finset.inter_subset_right inside
  · exact sides.mono Finset.inter_subset_right Finset.inter_subset_right
  · exact sides.mono Finset.inter_subset_right Finset.inter_subset_right

end Passing

variable {t : SplitTree ℕ ℕ} {db : Database V}

theorem evalOn_union_left (spec : CJoinRegionSpec V) (db : Database V) (away : Disjoint R t.leaves) :
    evalOn spec db (L ∪ R) t = evalOn spec db L t := by
  apply evalOn_congr
  rw [Finset.union_inter_distrib_right, Finset.disjoint_iff_inter_eq_empty.mp away,
    Finset.union_empty]

theorem evalOn_union_right (spec : CJoinRegionSpec V) (db : Database V) (away : Disjoint L t.leaves) :
    evalOn spec db (L ∪ R) t = evalOn spec db R t := by
  rw [Finset.union_comm]
  exact evalOn_union_left spec db away

theorem meets_union_left (meets : ¬ Disjoint L s) : ¬ Disjoint (L ∪ R) s :=
  not_disjoint_of_subset Finset.subset_union_left meets

theorem meets_union_right (meets : ¬ Disjoint R s) : ¬ Disjoint (L ∪ R) s :=
  not_disjoint_of_subset Finset.subset_union_right meets

theorem CutBy.evalOn_union (assume : Assumptions region db) (cut : CutBy region L R b bl br eb)
    {u : SplitTree ℕ ℕ}
    (inTree : ∀ {k l r}, SplitTree.HasNode k l r u → SplitTree.HasNode k l r region.tree)
    (nodup : u.keys.Nodup) (here : SplitTree.HasNode b bl br u) :
    evalOn region.spec db (L ∪ R) u = joinRows eb.joinType eb.predicate
      (evalOn region.spec db L u) (evalOn region.spec db R u) := by
  induction u with
  | leaf node => exact absurd here id
  | node k l r ihl ihr =>
    have root : SplitTree.HasNode k l r region.tree := inTree (.inl ⟨rfl, rfl, rfl⟩)
    obtain ⟨ev, facts⟩ := region.nodeEdge_of_node root
    obtain ⟨inner, -, fresh⟩ := List.nodup_append.mp nodup
    obtain ⟨nodupL, nodupR, -⟩ := List.nodup_append.mp inner
    have notBelow : b ∈ l.keys ++ r.keys → k ≠ b := fun member same =>
      fresh b member k (List.mem_singleton_self k) same.symm
    rcases here with ⟨rfl, rfl, rfl⟩ | left | right
    · rw [evalOn_split cut.edge.found (meets_union_left cut.leftMeets)
        (meets_union_right cut.rightMeets), evalOn_union_left _ _ cut.rightAway,
        evalOn_union_right _ _ cut.leftAway, evalOn_left cut.leftMeets cut.leftAway,
        evalOn_right cut.rightAway]
    · have other := notBelow (List.mem_append_left _ left.mem_keys)
      have meetsL := cut.left_meets_above left
      have meetsR := cut.right_meets_above left
      have ih := ihl (fun below => inTree (.inr (.inl below))) nodupL left
      by_cases away : Disjoint (L ∪ R) r.leaves
      · obtain ⟨awayL, awayR⟩ := Finset.disjoint_union_left.mp away
        rw [evalOn_left (meets_union_left meetsL) away, evalOn_left meetsL awayL,
          evalOn_left meetsR awayR]
        exact ih
      · rw [evalOn_split facts.found (meets_union_left meetsL) away, ih]
        rcases cut.once k (splits_above root (meets_union_left meetsL) away) other with byL | byR
        · have awayR : Disjoint R r.leaves := by
            by_contra reached
            exact cut.exclusive k byL (splits_above root meetsR reached)
          have reached : ¬ Disjoint L r.leaves := fun awayL =>
            away (Finset.disjoint_union_left.mpr ⟨awayL, awayR⟩)
          rw [evalOn_union_left _ _ awayR, evalOn_split facts.found meetsL reached,
            evalOn_left meetsR awayR]
          exact cut.pass_left_by_left assume root facts left byL reached
        · have awayL : Disjoint L r.leaves := by
            by_contra reached
            exact cut.exclusive k (splits_above root meetsL reached) byR
          have reached : ¬ Disjoint R r.leaves := fun awayR =>
            away (Finset.disjoint_union_left.mpr ⟨awayL, awayR⟩)
          rw [evalOn_union_right _ _ awayL, evalOn_split facts.found meetsR reached,
            evalOn_left meetsL awayL]
          exact cut.pass_left_by_right assume root facts left byR reached
    · have other := notBelow (List.mem_append_right _ right.mem_keys)
      have meetsL := cut.left_meets_above right
      have meetsR := cut.right_meets_above right
      have ih := ihr (fun below => inTree (.inr (.inr below))) nodupR right
      by_cases away : Disjoint (L ∪ R) l.leaves
      · obtain ⟨awayL, awayR⟩ := Finset.disjoint_union_left.mp away
        rw [evalOn_right away, evalOn_right awayL, evalOn_right awayR]
        exact ih
      · rw [evalOn_split facts.found away (meets_union_left meetsL), ih]
        rcases cut.once k (splits_above root away (meets_union_left meetsL)) other with byL | byR
        · have awayR : Disjoint R l.leaves := by
            by_contra reached
            exact cut.exclusive k byL (splits_above root reached meetsR)
          have reached : ¬ Disjoint L l.leaves := fun awayL =>
            away (Finset.disjoint_union_left.mpr ⟨awayL, awayR⟩)
          rw [evalOn_union_left _ _ awayR, evalOn_split facts.found reached meetsL,
            evalOn_right awayR]
          exact cut.pass_right_by_left assume root facts right byL reached
        · have awayL : Disjoint L l.leaves := by
            by_contra reached
            exact cut.exclusive k (splits_above root reached meetsL) byR
          have reached : ¬ Disjoint R l.leaves := fun awayR =>
            away (Finset.disjoint_union_left.mpr ⟨awayL, awayR⟩)
          rw [evalOn_union_right _ _ awayL, evalOn_split facts.found reached meetsR,
            evalOn_right awayL]
          exact cut.pass_right_by_right assume root facts right byR reached

theorem CutBy.of_sides {p q : JoinTree} (acceptedP : p.Accepted region.spec)
    (acceptedQ : q.Accepted region.spec) (apart : Disjoint p.nodes q.nodes)
    (used : (p.usedEdges region.spec ++ q.usedEdges region.spec ++ [b]).Perm
      (region.tree.splitKeys (p.nodes ∪ q.nodes))) (node : SplitTree.HasNode b bl br region.tree)
    (edge : region.NodeEdge b bl br eb) (eligible : eb.tes ⊆ p.nodes ∪ q.nodes)
    (leftMeets : ¬ Disjoint p.nodes bl.leaves) : CutBy region p.nodes q.nodes b bl br eb := by
  have nodup : (p.usedEdges region.spec ++ q.usedEdges region.spec ++ [b]).Nodup :=
    used.nodup_iff.mpr (region.tree_nodup.sublist (SplitTree.splitKeys_sublist _ _))
  obtain ⟨both, -, fresh⟩ := List.nodup_append.mp nodup
  obtain ⟨-, -, exclusive⟩ := List.nodup_append.mp both
  have notP : b ∉ region.tree.splitKeys p.nodes := fun splits =>
    fresh b (List.mem_append_left _ (acceptedP.usedEdges_perm.mem_iff.mpr splits)) b
      (List.mem_singleton_self b) rfl
  have notQ : b ∉ region.tree.splitKeys q.nodes := fun splits =>
    fresh b (List.mem_append_right _ (acceptedQ.usedEdges_perm.mem_iff.mpr splits)) b
      (List.mem_singleton_self b) rfl
  have leftAway : Disjoint p.nodes br.leaves := by
    by_contra reached
    exact notP (splits_above node leftMeets reached)
  have rightMeets : ¬ Disjoint q.nodes br.leaves := by
    intro away
    have none := Finset.disjoint_union_left.mpr ⟨leftAway, away⟩
    exact edge.meetsRight (edge.right ▸ none.mono_left eligible)
  have rightAway : Disjoint q.nodes bl.leaves := by
    by_contra reached
    exact notQ (splits_above node reached rightMeets)
  refine ⟨⟨node, edge, leftMeets, rightMeets, leftAway, rightAway, acceptedP.applied,
    acceptedQ.applied⟩, apart, eligible, ?_, ?_⟩
  · intro k splits other
    have member := used.mem_iff.mpr splits
    simp only [List.mem_append, List.mem_singleton, other, or_false] at member
    exact member.imp (acceptedP.usedEdges_perm.mem_iff.mp) (acceptedQ.usedEdges_perm.mem_iff.mp)
  · intro k inP inQ
    exact exclusive k (acceptedP.usedEdges_perm.mem_iff.mpr inP) k
      (acceptedQ.usedEdges_perm.mem_iff.mpr inQ) rfl

theorem cut_request {l r : JoinTree} (accepted : (JoinTree.join l r).Accepted region.spec) :
    ∃ b swapped edge request, region.spec.edges[b]? = some edge ∧
      edge.orientation l.nodes r.nodes = some swapped ∧
      fBuildJoinRequest region.spec l.nodes r.nodes = some request ∧
      request.joinType = edge.joinType ∧ pexprPredicate region.spec request = edge.predicate ∧
      (edge.joinType ≠ .innerJoin → edge.joinType ≠ .fullOuterJoin →
        request.swapped = swapped) ∧
      (JoinTree.join l r).usedEdges region.spec
        = l.usedEdges region.spec ++ r.usedEdges region.spec ++ [b] := by
  obtain ⟨request, found⟩ := Option.isSome_iff_exists.mp accepted.2.2.2
  obtain ⟨ids, -⟩ := fBuildJoinRequest_edgeIds region.mixed found
  have edges : JoinTree.edgesOf region.spec (l.nodes, r.nodes) = request.edgeIds := by
    simp only [JoinTree.edgesOf, found]
  have single := accepted.cut_single (l.nodes, r.nodes) (by simp [JoinTree.cuts])
  rw [edges, ids, List.length_map] at single
  obtain ⟨⟨b, swapped⟩, applicable⟩ := List.length_eq_one_iff.mp single
  have member : (⟨b, swapped⟩ : SApplicableEdge) ∈ applicableEdges region.spec l.nodes r.nodes := by
    rw [applicable]
    exact List.mem_singleton_self _
  simp only [applicableEdges, region.mixed, Bool.false_eq_true, if_false, List.mem_filterMap,
    Option.map_eq_some_iff, SApplicableEdge.mk.injEq] at member
  obtain ⟨edgeId, -, orientation, pair, rfl, rfl⟩ := member
  obtain ⟨edge, inSpec, oriented⟩ := applied_of_fPairApplicable region.mixed pair
  obtain ⟨edgeIds, joinType, direction⟩ :=
    fBuildJoinRequest_single region.mixed found applicable inSpec
  refine ⟨edgeId, orientation, edge, request, inSpec, oriented, found, joinType, ?_, direction, ?_⟩
  · simp only [pexprPredicate, edgeIds, List.flatMap_cons, List.flatMap_nil, inSpec,
      List.append_nil]
  · rw [JoinTree.usedEdges_join, edges, edgeIds]

theorem left_meets_of_orientation {left right : CBitSet} {swapped : Bool}
    (oriented : edge.orientation left right = some swapped) (nonInner : edge.joinType ≠ .innerJoin)
    (meets : ¬ Disjoint edge.tes edge.left) :
    ¬ Disjoint (if swapped then right else left) edge.left := by
  obtain ⟨node, inTes, inLeft⟩ := Finset.not_disjoint_iff.mp meets
  have both := Finset.mem_inter.mpr ⟨inTes, inLeft⟩
  rcases edge.orientation_spec oriented with ⟨rfl, forward⟩ | ⟨rfl, backward⟩
  · obtain ⟨-, -, -, -, -, sides⟩ := CEdge.fApplicable_spec forward
    exact Finset.not_disjoint_iff.mpr ⟨node, (sides nonInner).1 both, inLeft⟩
  · obtain ⟨-, -, -, -, -, sides⟩ := CEdge.fApplicable_spec backward
    exact Finset.not_disjoint_iff.mpr ⟨node, (sides nonInner).1 both, inLeft⟩

/-- The two input orders of an applied edge give the same rows, or the order is the edge's own. -/
theorem CutBy.oriented_rows (assume : Assumptions region db) (cut : CutBy region L R b bl br eb)
    (swapped : Bool) (direction : eb.joinType ≠ .innerJoin → swapped = false) :
    (if swapped then joinRows eb.joinType eb.predicate (evalOn region.spec db R region.tree)
        (evalOn region.spec db L region.tree)
      else joinRows eb.joinType eb.predicate (evalOn region.spec db L region.tree)
        (evalOn region.spec db R region.tree))
      = evalOn region.spec db (L ∪ R) region.tree := by
  rw [cut.evalOn_union assume id region.tree_nodup cut.node]
  split
  · rename_i reversed
    have inner : eb.joinType = .innerJoin := by
      by_contra nonInner
      rw [direction nonInner] at reversed
      simp at reversed
    have rowsL := evalOn_rows region.spec assume.valid (cut.left_meets_above cut.node)
    have rowsR := evalOn_rows region.spec assume.valid (cut.right_meets_above cut.node)
    simp only [inner, joinRows]
    refine leftJoin_inner_comm (pcrsNodes_disjoint assume.distinct ?_) rowsR rowsL
    exact cut.apart.symm.mono Finset.inter_subset_left Finset.inter_subset_left
  · rfl

theorem JoinTree.Accepted.eval_eq_evalOn (assume : Assumptions region db) {tree : JoinTree}
    (accepted : tree.Accepted region.spec) :
    tree.eval region.spec db = evalOn region.spec db tree.nodes region.tree := by
  induction tree with
  | leaf node =>
    have member : node ∈ region.tree.leaves := by
      rw [region.nodeCount_eq]
      exact Finset.mem_range.mpr accepted
    exact (evalOn_singleton region.tree_distinct member).symm
  | join l r ihl ihr =>
    obtain ⟨b, swapped, edge, request, inSpec, oriented, found, joinType, predicate, direction,
      usedEdges⟩ := cut_request accepted
    obtain ⟨bl, br, node, facts⟩ := region.node_of_edge inSpec
    have eligible := (edge.orientation_joins oriented).1
    have used := usedEdges ▸ accepted.usedEdges_perm
    have notFull := assume.kinds.noFullOuter _ _ inSpec
    have named : edge.joinType ≠ .innerJoin →
        ¬ Disjoint (if request.swapped then r.nodes else l.nodes) bl.leaves := by
      intro nonInner
      rw [direction nonInner notFull, ← facts.left]
      exact left_meets_of_orientation oriented nonInner facts.meetsLeft
    simp only [JoinTree.eval, found, joinType, predicate, ihl accepted.1, ihr accepted.2.1,
      JoinTree.nodes]
    by_cases leftMeets : Disjoint l.nodes bl.leaves
    · have rightMeets : ¬ Disjoint r.nodes bl.leaves := fun away =>
        facts.meetsLeft (facts.left ▸ (Finset.disjoint_union_left.mpr ⟨leftMeets, away⟩).mono_left
          eligible)
      rw [Finset.union_comm] at eligible
      have usedRev : (r.usedEdges region.spec ++ l.usedEdges region.spec ++ [b]).Perm
          (region.tree.splitKeys (r.nodes ∪ l.nodes)) := by
        rw [Finset.union_comm]
        exact (List.perm_append_comm.append_right [b]).trans used
      have cut := CutBy.of_sides accepted.2.1 accepted.1 accepted.2.2.1.symm usedRev node facts
        eligible rightMeets
      have rows := cut.oriented_rows assume (!request.swapped) (fun nonInner => by
        have side := named nonInner
        cases reversed : request.swapped
        · simp [reversed, leftMeets] at side
        · rfl)
      rw [Finset.union_comm, ← rows]
      cases request.swapped <;> rfl
    · have cut := CutBy.of_sides accepted.1 accepted.2.1 accepted.2.2.1 used node facts
        eligible leftMeets
      refine cut.oriented_rows assume _ (fun nonInner => ?_)
      have side := named nonInner
      cases reversed : request.swapped
      · rfl
      · simp [reversed, cut.rightAway] at side

/-- A complete join tree over accepted cuts returns the rows of the original tree. -/
theorem accepted_tree_returns_original_rows (region : MixedRegion V) (db : Database V)
    (assume : Assumptions region db) (tree : JoinTree) (accepted : tree.Accepted region.spec)
    (complete : tree.nodes = Finset.range region.spec.nodeCount) :
    tree.eval region.spec db = region.root.eval db 0 := by
  rw [accepted.eval_eq_evalOn assume, complete]
  refine evalOn_all ?_ ?_
  · rw [← region.nodeCount_eq, MixedRegion.tree, CExpression.regionTree_leaves]
  · intro i raw found
    obtain ⟨-, edges, -⟩ := region.spec_eq
    have built := buildEdges_getElem region.nullRejecting region.root.atomList found
    rw [← edges] at built
    rw [Nat.zero_add]
    exact ⟨_, built, buildEligibility_keeps ..⟩

def threeRows : Database Unit :=
  fun node => if node < 3 then {rowOf {node}} else 0

theorem outerThenInner_assumptions : Assumptions outerThenInnerRegion threeRows where
  nullRejection := decideNullRejecting_sound
  distinct := columnAtoms_distinct 3
  scope := by unfold MixedRegion.Scoped; decide
  kinds := by unfold MixedRegion.LeftOperators; decide
  valid := by
    intro node row member
    simp only [threeRows] at member
    split at member
    · rename_i bound
      rw [Multiset.mem_singleton.mp member]
      intro c outside
      have columns : pcrsNodes (columnAtoms 3) {node} = {node} := by
        interval_cases node <;> rfl
      have other : c ∉ pcrsNodes (columnAtoms 3) {node} := outside
      rw [columns] at other
      exact if_neg other
    · simp at member

theorem accepted_tree_returns_original_rows_inner_first :
    (JoinTree.join (.join (.leaf 0) (.leaf 2)) (.leaf 1)).eval outerThenInnerRegion.spec threeRows
      = outerThenInner.eval threeRows 0 :=
  accepted_tree_returns_original_rows outerThenInnerRegion threeRows outerThenInner_assumptions
    _ (by decide) (by decide)

end JoinRegion
