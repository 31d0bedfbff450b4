import Tuuli.JoinKeys

/-!
What happens to the keys of a predicate that consists of key equalities over the columns of
the two inputs: the split keeps all of them in either order of the inputs, aligning permutes
them, and narrowing keeps one key of each class of keys that are equal on all rows.
-/
namespace JoinMatcher
open TruthValues

section Truth
variable {V : Type} {row : Row V} {v w : Option V}

/-- Both values are there and they are the same. -/
def Identical (v w : Option V) : Prop := ∃ value, v = some value ∧ w = some value

theorem Identical.symm (same : Identical v w) : Identical w v := by
  obtain ⟨value, first, second⟩ := same
  exact ⟨value, second, first⟩

theorem Comparison.truth_of_identical (comparison : Comparison V) (same : Identical v w) :
    comparison.truth v w = some true := by
  obtain ⟨value, rfl, rfl⟩ := same
  rw [Comparison.truth, comparison.refl]

mutual

theorem truth_iff_conjuncts (pred : Predicate V) :
    pred.truth row = some true ↔
      ∀ conjunct ∈ collectConjuncts pred, conjunct.truth row = some true := by
  cases pred with
  | and children =>
    rw [Predicate.truth, collectConjuncts, conj_eq_true_iff]
    exact truths_iff_conjuncts children
  | equality comparison first second => simp [collectConjuncts]
  | other used truth => simp [collectConjuncts]

theorem truths_iff_conjuncts (preds : List (Predicate V)) :
    (∀ truth ∈ Predicate.truths row preds, truth = some true) ↔
      ∀ conjunct ∈ collectAll preds, conjunct.truth row = some true := by
  cases preds with
  | nil => simp [Predicate.truths, collectAll]
  | cons pred rest =>
    rw [Predicate.truths, collectAll, List.forall_mem_cons, List.forall_mem_append,
      truth_iff_conjuncts pred, truths_iff_conjuncts rest]

end

end Truth

section Split
variable {V : Type} {a b : ℕ} {output : List ℕ} {conjunct pred : Predicate V}

mutual

theorem mem_used_iff (pred : Predicate V) (col : ℕ) :
    col ∈ pred.used ↔ ∃ conjunct ∈ collectConjuncts pred, col ∈ conjunct.used := by
  cases pred with
  | and children =>
    rw [Predicate.used, collectConjuncts]
    exact mem_usedAll_iff children col
  | equality comparison first second => simp [collectConjuncts]
  | other used truth => simp [collectConjuncts]

theorem mem_usedAll_iff (preds : List (Predicate V)) (col : ℕ) :
    col ∈ Predicate.usedAll preds ↔ ∃ conjunct ∈ collectAll preds, col ∈ conjunct.used := by
  cases preds with
  | nil => simp [Predicate.usedAll, collectAll]
  | cons pred rest =>
    rw [Predicate.usedAll, collectAll, List.mem_append, mem_used_iff pred, mem_usedAll_iff rest]
    simp only [List.mem_append, or_and_right, exists_or]

end

/-- An equality of two columns, in either order. -/
def Equates (a b : ℕ) (conjunct : Predicate V) : Prop :=
  ∃ comparison, conjunct = .equality comparison (.column a) (.column b) ∨
    conjunct = .equality comparison (.column b) (.column a)

theorem Equates.symm (h : Equates a b conjunct) : Equates b a conjunct := by
  obtain ⟨comparison, order⟩ := h
  exact ⟨comparison, order.symm⟩

theorem Equates.columns {c d : ℕ} (h : Equates a b conjunct) (other : Equates c d conjunct) :
    (c = a ∧ d = b) ∨ (c = b ∧ d = a) := by
  obtain ⟨comparison, rfl | rfl⟩ := h
  · obtain ⟨comparison', same | same⟩ := other
    · cases same
      exact .inl ⟨rfl, rfl⟩
    · cases same
      exact .inr ⟨rfl, rfl⟩
  · obtain ⟨comparison', same | same⟩ := other
    · cases same
      exact .inr ⟨rfl, rfl⟩
    · cases same
      exact .inl ⟨rfl, rfl⟩

theorem Equates.mem_used_iff (h : Equates a b conjunct) (col : ℕ) :
    col ∈ conjunct.used ↔ col = a ∨ col = b := by
  obtain ⟨comparison, rfl | rfl⟩ := h
  · simp [Predicate.used, Operand.used]
  · simp [Predicate.used, Operand.used, or_comm]

theorem Equates.truth_of_identical {row : Row V} (h : Equates a b conjunct)
    (same : Identical (row a) (row b)) : conjunct.truth row = some true := by
  obtain ⟨comparison, rfl | rfl⟩ := h
  · exact comparison.truth_of_identical same
  · exact comparison.truth_of_identical same.symm

theorem keyEdge_eq_some_iff :
    keyEdge output conjunct = some (a, b) ↔ a ∈ output ∧ b ∉ output ∧ Equates a b conjunct := by
  constructor
  · intro h
    cases conjunct with
    | and children => cases h
    | other used truth => cases h
    | equality comparison first second =>
      cases first with
      | computed used value => cases h
      | column pcr0 =>
        cases second with
        | computed used value => cases h
        | column pcr1 =>
          simp only [keyEdge, pcrJoinKeyOperand] at h
          split at h
          next inside =>
            cases h
            exact ⟨inside.1, inside.2, comparison, .inl rfl⟩
          next =>
            split at h
            next inside =>
              cases h
              exact ⟨inside.1, inside.2, comparison, .inr rfl⟩
            next => cases h
  · rintro ⟨mem, outside, comparison, rfl | rfl⟩
    · simp [keyEdge, pcrJoinKeyOperand, mem, outside]
    · simp [keyEdge, pcrJoinKeyOperand, mem, outside]

/-- Every conjunct equates a column of the input with a column outside of it. -/
def KeyEqualities (pred : Predicate V) (output : List ℕ) : Prop :=
  ∀ conjunct ∈ collectConjuncts pred, ∃ a ∈ output, ∃ b ∉ output, Equates a b conjunct

theorem residual_eq_nil_iff :
    (fSplitJoinPredicate pred output).residual.length = 0 ↔ KeyEqualities pred output := by
  rw [fSplitJoinPredicate, List.length_eq_zero_iff, List.filter_eq_nil_iff]
  constructor
  · intro h conjunct mem
    obtain ⟨⟨a, b⟩, edge⟩ := Option.ne_none_iff_exists'.mp
      (by simpa using h conjunct mem : keyEdge output conjunct ≠ none)
    obtain ⟨inside, outside, equates⟩ := keyEdge_eq_some_iff.mp edge
    exact ⟨a, inside, b, outside, equates⟩
  · intro h conjunct mem
    obtain ⟨a, inside, b, outside, equates⟩ := h conjunct mem
    rw [keyEdge_eq_some_iff.mpr ⟨inside, outside, equates⟩]
    simp

theorem mem_edges_iff :
    (a, b) ∈ (fSplitJoinPredicate pred output).edges ↔
      ∃ conjunct ∈ collectConjuncts pred, a ∈ output ∧ b ∉ output ∧ Equates a b conjunct := by
  simp only [fSplitJoinPredicate, List.mem_filterMap, keyEdge_eq_some_iff]

theorem truth_of_edges {row : Row V} (h : KeyEqualities pred output)
    (all : ∀ edge ∈ (fSplitJoinPredicate pred output).edges,
      Identical (row edge.1) (row edge.2)) : pred.truth row = some true := by
  rw [truth_iff_conjuncts]
  intro conjunct mem
  obtain ⟨a, inside, b, outside, equates⟩ := h conjunct mem
  exact equates.truth_of_identical
    (all (a, b) (mem_edges_iff.mpr ⟨conjunct, mem, inside, outside, equates⟩))

end Split

section Selecting
variable {edges : List (ℕ × ℕ)} {selected : List ℕ} {edge : ℕ × ℕ}

theorem mem_selectEdges_iff :
    edge ∈ selectEdges edges selected ↔ ∃ i ∈ selected, edges[i]? = some edge := by
  rw [selectEdges, List.mem_filterMap]

theorem mem_of_mem_selectEdges (h : edge ∈ selectEdges edges selected) : edge ∈ edges := by
  obtain ⟨i, -, at_i⟩ := mem_selectEdges_iff.mp h
  exact List.mem_of_getElem? at_i

theorem alignLoop_spec {expectedLeft expectedRight : Option (List ℕ)} (positions : List ℕ) :
    ∀ {used : List ℕ}, used.Nodup → (∀ i ∈ used, i < edges.length) →
      alignLoop edges expectedLeft expectedRight positions used = some selected →
      selected.Nodup ∧ (∀ i ∈ selected, i < edges.length) ∧
        selected.length = used.length + positions.length := by
  induction positions with
  | nil =>
    intro used nodup bounded h
    cases h
    exact ⟨nodup, bounded, rfl⟩
  | cons position rest ih =>
    intro used nodup bounded h
    rw [alignLoop] at h
    split at h
    next only single =>
      have mem : only ∈ candidates edges expectedLeft expectedRight position used := by
        rw [single]
        exact List.mem_singleton_self only
      simp only [candidates, List.mem_filter, List.mem_range, Bool.and_eq_true,
        decide_eq_true_eq] at mem
      have fresh : (used ++ [only]).Nodup :=
        List.nodup_append.mpr ⟨nodup, List.pairwise_singleton _ only, by
          intro i old j new same
          exact mem.2.1 (List.mem_singleton.mp new ▸ same ▸ old)⟩
      have still : ∀ i ∈ used ++ [only], i < edges.length := by
        intro i member
        cases List.mem_append.mp member with
        | inl old => exact bounded i old
        | inr new => exact List.mem_singleton.mp new ▸ mem.1
      obtain ⟨distinct, below, count⟩ := ih fresh still h
      refine ⟨distinct, below, ?_⟩
      rw [count, List.length_append, List.length_singleton, List.length_cons]
      omega
    next => cases h

theorem mem_of_full (nodup : selected.Nodup) (bounded : ∀ i ∈ selected, i < edges.length)
    (full : selected.length = edges.length) {i : ℕ} (below : i < edges.length) : i ∈ selected := by
  have inside : selected ⊆ List.range edges.length := fun j mem =>
    List.mem_range.mpr (bounded j mem)
  have perm := (nodup.subperm inside).perm_of_length_le (by simp [full])
  exact perm.mem_iff.mpr (List.mem_range.mpr below)

theorem mem_alignJoinKeys_iff (expectedLeft expectedRight : Option (List ℕ)) :
    edge ∈ alignJoinKeys expectedLeft expectedRight edges ↔ edge ∈ edges := by
  unfold alignJoinKeys
  split
  next => rfl
  next selector _ =>
    split
    next => rfl
    next sizes =>
      split
      next => rfl
      next selected aligned =>
        simp only [Bool.or_eq_true, decide_eq_true_eq, not_or, not_not] at sizes
        obtain ⟨nodup, bounded, count⟩ :=
          alignLoop_spec (List.range selector.length) List.nodup_nil (by simp) aligned
        have full : selected.length = edges.length := by
          simpa [sizes.2] using count
        constructor
        · exact mem_of_mem_selectEdges
        · intro mem
          obtain ⟨i, below, at_i⟩ := List.getElem_of_mem mem
          refine mem_selectEdges_iff.mpr ⟨i, mem_of_full nodup bounded full below, ?_⟩
          rw [List.getElem?_eq_getElem below, at_i]

end Selecting

section Grouping
variable {equivalent : ℕ → ℕ → Bool} {groups : List (List ℕ)}

/-- Every member of a group is its front or equivalent to it. -/
def Fronted (equivalent : ℕ → ℕ → Bool) (group : List ℕ) : Prop :=
  ∃ front, group.head? = some front ∧
    ∀ edge ∈ group, edge = front ∨ equivalent front edge = true

theorem addToGroups_fronted (edge : ℕ) (h : ∀ group ∈ groups, Fronted equivalent group) :
    ∀ group ∈ addToGroups equivalent edge groups, Fronted equivalent group := by
  induction groups with
  | nil =>
    intro group mem
    cases List.mem_singleton.mp mem
    exact ⟨edge, rfl, fun other same => .inl (List.mem_singleton.mp same)⟩
  | cons first rest ih =>
    rw [List.forall_mem_cons] at h
    obtain ⟨front, head, all⟩ := h.1
    rw [addToGroups]
    split
    next joined =>
      rw [List.forall_mem_cons]
      rw [head] at joined
      refine ⟨⟨front, by rw [List.head?_append, head]; rfl, ?_⟩, h.2⟩
      intro other mem
      cases List.mem_append.mp mem with
      | inl old => exact all other old
      | inr new => exact List.mem_singleton.mp new ▸ .inr joined
    next =>
      rw [List.forall_mem_cons]
      exact ⟨h.1, ih h.2⟩

theorem mem_addToGroups_iff (edge other : ℕ) :
    (∃ group ∈ addToGroups equivalent edge groups, other ∈ group) ↔
      other = edge ∨ ∃ group ∈ groups, other ∈ group := by
  induction groups with
  | nil => simp [addToGroups]
  | cons first rest ih =>
    rw [addToGroups]
    split
    next =>
      simp only [List.exists_mem_cons_iff, List.mem_append, List.mem_singleton]
      tauto
    next =>
      rw [List.exists_mem_cons_iff, List.exists_mem_cons_iff, ih]
      tauto

/-- The edges below a number, in groups of edges equivalent to their front. -/
structure Grouping (equivalent : ℕ → ℕ → Bool) (count : ℕ) (groups : List (List ℕ)) : Prop where
  fronted : ∀ group ∈ groups, Fronted equivalent group
  covers : ∀ edge, (∃ group ∈ groups, edge ∈ group) ↔ edge < count

theorem edgeGroups_grouping (equivalent : ℕ → ℕ → Bool) (count : ℕ) :
    Grouping equivalent count (edgeGroups equivalent count) := by
  induction count with
  | zero => exact ⟨by simp [edgeGroups], by simp [edgeGroups]⟩
  | succ count ih =>
    have step : edgeGroups equivalent (count + 1) =
        addToGroups equivalent count (edgeGroups equivalent count) := by
      simp only [edgeGroups, List.range_succ, List.foldl_append, List.foldl_cons, List.foldl_nil]
    rw [step]
    constructor
    · exact addToGroups_fronted count ih.fronted
    · intro edge
      rw [mem_addToGroups_iff, ih.covers]
      omega

theorem fTryJoinKeyRepresentatives_spec {accepts : List ℕ → Bool} {found : List ℕ} :
    ∀ {selected : List ℕ}, fTryJoinKeyRepresentatives accepts groups selected = some found →
      selected ⊆ found ∧ ∀ group ∈ groups, ∃ edge ∈ group, edge ∈ found := by
  induction groups with
  | nil =>
    intro selected h
    rw [fTryJoinKeyRepresentatives] at h
    split at h
    next =>
      cases h
      exact ⟨List.Subset.refl _, by simp⟩
    next => cases h
  | cons group rest ih =>
    intro selected h
    rw [fTryJoinKeyRepresentatives] at h
    obtain ⟨edge, mem, next⟩ := List.exists_of_findSome?_eq_some h
    obtain ⟨kept, others⟩ := ih next
    rw [List.append_subset] at kept
    rw [List.forall_mem_cons]
    exact ⟨kept.1, ⟨edge, mem, kept.2 (List.mem_singleton_self edge)⟩, others⟩

end Grouping

section Exactness
variable {V : Type} {join : LiveJoin V} {leftSide : Side} {edges : List (ℕ × ℕ)}

/-- The columns of the edges are outputs of the inputs matched as left and as right. -/
def Outputs (join : LiveJoin V) (leftSide : Side) (edges : List (ℕ × ℕ)) : Prop :=
  ∀ edge ∈ edges, edge.1 ∈ join.output leftSide ∧ edge.2 ∈ join.output leftSide.opposite

def Rows (join : LiveJoin V) (rowOf : Side → Row V) : Prop :=
  ∀ side, join.rows side (rowOf side)

/-- The row the predicate is evaluated on, with `outer` for the columns of neither input. -/
def combine (join : LiveJoin V) (rowOf : Side → Row V) (outer : Row V) : Row V := fun col =>
  if col ∈ join.output .left then rowOf .left col
  else if col ∈ join.output .right then rowOf .right col
  else outer col

variable {rowOf : Side → Row V} {outer : Row V} {col : ℕ} {side : Side}

theorem combine_of_mem (mem : col ∈ join.output side) :
    combine join rowOf outer col = rowOf side col := by
  cases side with
  | left => exact if_pos mem
  | right =>
    have outside : col ∉ join.output .left := fun left => join.disjoint col left mem
    rw [combine, if_neg outside, if_pos mem]

theorem not_mem_opposite (mem : col ∈ join.output side) : col ∉ join.output side.opposite := by
  cases side with
  | left => exact join.disjoint col mem
  | right => exact fun left => join.disjoint col left mem

def edgeValues (rowOf : Side → Row V) (leftSide : Side) (edge : ℕ × ℕ) : Option V × Option V :=
  (rowOf leftSide edge.1, rowOf leftSide.opposite edge.2)

variable {group : List ℕ} {groups : List (List ℕ)}

theorem fColumnsEquivalent_sound {first second : ℕ} (rows : Rows join rowOf)
    (mem₁ : first ∈ join.output side) (mem₂ : second ∈ join.output side)
    (h : fColumnsEquivalent join side first second = true) :
    rowOf side first = rowOf side second := by
  simp only [fColumnsEquivalent, Bool.or_eq_true, decide_eq_true_eq] at h
  cases h with
  | inl same => rw [same]
  | inr equivalent => exact join.sound side _ (rows side) first mem₁ second mem₂ equivalent

theorem fEquivalentJoinEdges_sound {i j : ℕ} {edge other : ℕ × ℕ} (rows : Rows join rowOf)
    (outputs : Outputs join leftSide edges) (at_i : edges[i]? = some edge)
    (at_j : edges[j]? = some other) (h : fEquivalentJoinEdges join leftSide edges i j = true) :
    edgeValues rowOf leftSide edge = edgeValues rowOf leftSide other := by
  rw [fEquivalentJoinEdges, at_i, at_j] at h
  have both := Bool.and_eq_true_iff.mp h
  have edgeOut := outputs edge (List.mem_of_getElem? at_i)
  have otherOut := outputs other (List.mem_of_getElem? at_j)
  exact Prod.ext (fColumnsEquivalent_sound rows edgeOut.1 otherOut.1 both.1)
    (fColumnsEquivalent_sound rows edgeOut.2 otherOut.2 both.2)

theorem Fronted.exists_front {equivalent : ℕ → ℕ → Bool} (h : Fronted equivalent group) :
    ∃ front ∈ group, ∀ edge ∈ group, edge = front ∨ equivalent front edge = true := by
  obtain ⟨front, head, all⟩ := h
  exact ⟨front, List.mem_of_mem_head? head, all⟩

theorem Grouping.sound (h : Grouping (fEquivalentJoinEdges join leftSide edges) edges.length groups)
    (known : group ∈ groups) (rows : Rows join rowOf) (outputs : Outputs join leftSide edges) :
    ∃ values, ∀ i ∈ group, ∃ edge, edges[i]? = some edge ∧
      edgeValues rowOf leftSide edge = values := by
  obtain ⟨front, mem, all⟩ := (h.fronted group known).exists_front
  have entry : ∀ i ∈ group, ∃ edge, edges[i]? = some edge := fun i mem_i =>
    ⟨_, List.getElem?_eq_getElem ((h.covers i).mp ⟨group, known, mem_i⟩)⟩
  obtain ⟨frontEdge, at_front⟩ := entry front mem
  refine ⟨edgeValues rowOf leftSide frontEdge, ?_⟩
  intro i mem_i
  cases all i mem_i with
  | inl same =>
    subst same
    exact ⟨frontEdge, at_front, rfl⟩
  | inr equivalent =>
    obtain ⟨edge, at_i⟩ := entry i mem_i
    exact ⟨edge, at_i,
      (fEquivalentJoinEdges_sound rows outputs at_front at_i equivalent).symm⟩

/-- Some of the edges, such that every edge has the values of one of them on every pair of
rows. -/
def Represents (join : LiveJoin V) (leftSide : Side) (edges narrowed : List (ℕ × ℕ)) : Prop :=
  narrowed ⊆ edges ∧ ∀ rowOf, Rows join rowOf → ∀ edge ∈ edges, ∃ other ∈ narrowed,
    edgeValues rowOf leftSide edge = edgeValues rowOf leftSide other

variable {narrowed : List (ℕ × ℕ)}

theorem Represents.of_mem_iff (h : ∀ edge, edge ∈ narrowed ↔ edge ∈ edges) :
    Represents join leftSide edges narrowed :=
  ⟨fun edge => (h edge).mp, fun _ _ edge mem => ⟨edge, (h edge).mpr mem, rfl⟩⟩

theorem Represents.trans {last : List (ℕ × ℕ)} (h : Represents join leftSide edges narrowed)
    (next : Represents join leftSide narrowed last) : Represents join leftSide edges last := by
  refine ⟨List.Subset.trans next.1 h.1, ?_⟩
  intro rowOf rows edge mem
  obtain ⟨middle, known, same⟩ := h.2 rowOf rows edge mem
  obtain ⟨other, kept, same'⟩ := next.2 rowOf rows middle known
  exact ⟨other, kept, same.trans same'⟩

theorem represents_selected {selected : List ℕ} (outputs : Outputs join leftSide edges)
    (grouping : Grouping (fEquivalentJoinEdges join leftSide edges) edges.length groups)
    (chosen : ∀ group ∈ groups, ∃ i ∈ group, i ∈ selected) :
    Represents join leftSide edges (selectEdges edges selected) := by
  refine ⟨fun edge => mem_of_mem_selectEdges, ?_⟩
  intro rowOf rows edge mem
  obtain ⟨i, below, at_i⟩ := List.getElem_of_mem mem
  obtain ⟨group, known, mem_i⟩ := (grouping.covers i).mpr below
  obtain ⟨j, mem_j, picked⟩ := chosen group known
  obtain ⟨values, same⟩ := grouping.sound known rows outputs
  obtain ⟨first, at_first, values_first⟩ := same i mem_i
  obtain ⟨other, at_j, values_other⟩ := same j mem_j
  rw [List.getElem?_eq_getElem below, at_i] at at_first
  cases at_first
  exact ⟨other, mem_selectEdges_iff.mpr ⟨j, picked, at_j⟩, values_first.trans values_other.symm⟩

theorem narrow_represents (engine : Engine V) (rule : Option CDSLRule) (symLeft symRight : ℕ)
    (model : Model) (outputs : Outputs join leftSide edges) :
    Represents join leftSide edges
      (narrowEquivalentJoinKeysByConstraints engine rule symLeft symRight join leftSide model
        edges) := by
  unfold narrowEquivalentJoinKeysByConstraints
  split
  next => exact Represents.of_mem_iff fun _ => Iff.rfl
  next rule =>
    split
    next => exact Represents.of_mem_iff fun _ => Iff.rfl
    next =>
      simp only
      split
      next => exact Represents.of_mem_iff fun _ => Iff.rfl
      next =>
        split
        next => exact Represents.of_mem_iff fun _ => Iff.rfl
        next selected found =>
          exact represents_selected outputs (edgeGroups_grouping _ _)
            (fTryJoinKeyRepresentatives_spec found).2

def Local (join : LiveJoin V) : Prop :=
  ∀ col ∈ join.predicate.used, col ∈ join.output .left ∨ col ∈ join.output .right

theorem fLocal_iff : fLocal join = true ↔ Local join := by
  simp [fLocal, Local]

/-- Of a local predicate of key equalities, each conjunct equates a column of the one input
with a column of the other. -/
theorem exists_equates (inputs : Local join)
    (keys : KeyEqualities join.predicate (join.output .left)) {conjunct : Predicate V}
    (mem : conjunct ∈ collectConjuncts join.predicate) (side : Side) :
    ∃ a ∈ join.output side, ∃ b ∈ join.output side.opposite, Equates a b conjunct := by
  obtain ⟨a, inside, b, outside, equates⟩ := keys conjunct mem
  have used : b ∈ join.predicate.used :=
    (mem_used_iff _ b).mpr ⟨conjunct, mem, (equates.mem_used_iff b).mpr (.inr rfl)⟩
  have right := (inputs b used).resolve_left outside
  cases side with
  | left => exact ⟨a, inside, b, right, equates⟩
  | right => exact ⟨b, right, a, inside, equates.symm⟩

theorem keyEqualities_side (inputs : Local join)
    (keys : KeyEqualities join.predicate (join.output .left)) (side : Side) :
    KeyEqualities join.predicate (join.output side) := by
  intro conjunct mem
  obtain ⟨a, inside, b, opposite, equates⟩ := exists_equates inputs keys mem side
  refine ⟨a, inside, b, ?_, equates⟩
  cases side with
  | left => exact not_mem_opposite opposite
  | right => exact not_mem_opposite opposite

theorem outputs_side (inputs : Local join) (side : Side) :
    Outputs join side (fSplitJoinPredicate join.predicate (join.output side)).edges := by
  intro ⟨a, b⟩ mem
  obtain ⟨conjunct, known, inside, outside, equates⟩ := mem_edges_iff.mp mem
  have used : b ∈ join.predicate.used :=
    (mem_used_iff _ b).mpr ⟨conjunct, known, (equates.mem_used_iff b).mpr (.inr rfl)⟩
  refine ⟨inside, ?_⟩
  cases side with
  | left => exact (inputs b used).resolve_left outside
  | right => exact (inputs b used).resolve_right outside

theorem Outputs.mono (h : Outputs join leftSide edges) (subset : narrowed ⊆ edges) :
    Outputs join leftSide narrowed :=
  fun edge mem => h edge (subset mem)

theorem boundKeys_represents (engine : Engine V) (rule : Option CDSLRule) (symLeft symRight : ℕ)
    (before model : Model)
    (outputs : Outputs join leftSide (fSplitJoinPredicate join.predicate (join.output
      leftSide)).edges) :
    Represents join leftSide (fSplitJoinPredicate join.predicate (join.output leftSide)).edges
      (boundKeys engine rule symLeft symRight join leftSide before model) := by
  have aligned : Represents join leftSide
      (fSplitJoinPredicate join.predicate (join.output leftSide)).edges
      (alignJoinKeys (pdrgpcrExpectedJoinKeys rule symLeft before)
        (pdrgpcrExpectedJoinKeys rule symRight before)
        (fSplitJoinPredicate join.predicate (join.output leftSide)).edges) :=
    Represents.of_mem_iff fun edge => mem_alignJoinKeys_iff _ _
  unfold boundKeys
  simp only
  split
  next =>
    exact aligned.trans (narrow_represents engine rule symLeft symRight model
      (outputs.mono aligned.1))
  next => exact aligned

end Exactness

end JoinMatcher
