import Tuuli.JoinKeyNarrowing

/-!
What the keys bound by a keyed join match say. If all columns of the predicate are columns of
the two inputs and the predicate holds of equal columns only, it is exactly the equality of the
bound keys. The matcher checks the first for rules with bindings only: for other rules a column of
neither input, of an enclosing query say, is taken for a key of the right input.
-/
namespace JoinMatcher
open RuleModels

section Binding
variable {model next : Model} {sym : ℕ} {value : Binding ℕ}

theorem fBind_value (h : model.fBind sameBinding sym value = some next) :
    next sym = some value := by
  obtain ⟨kept, found, rfl | same⟩ := CDSLModel.fBind_bound h
  · exact found
  · rw [found, of_decide_eq_true same]

theorem bindKeys_spec {symLeft symRight : ℕ} {edges : List (ℕ × ℕ)}
    (h : bindKeys model symLeft symRight edges = some next) :
    next symLeft = some (.attrs (edges.map Prod.fst)) ∧
      next symRight = some (.attrs (edges.map Prod.snd)) := by
  obtain ⟨between, first, second⟩ := Option.bind_eq_some_iff.mp h
  exact ⟨CDSLModel.fBind_extends second _ _ (fBind_value first), fBind_value second⟩

theorem bindOutput_extends {columns : List ℕ} (syms : List ℕ) :
    ∀ {model : Model}, bindOutput columns syms model = some next → model.Extends next := by
  induction syms with
  | nil =>
    intro model h
    cases h
    exact .refl _
  | cons sym rest ih =>
    intro model h
    obtain ⟨between, first, second⟩ := Option.bind_eq_some_iff.mp h
    exact (CDSLModel.fBind_extends first).trans (ih second)

end Binding

section Inversion
variable {V : Type} {join : LiveJoin V}

theorem fMatch_cases {engine : Engine V} {rule : Option CDSLRule} {op : CDSLJoinOp}
    {model : Model} {result : Matched} (h : fMatch engine rule op join model = some result) :
    ∃ symLeft symRight outputs matched bound, op.symbols = symLeft :: symRight :: outputs ∧
      KeyEqualities join.predicate (join.output .left) ∧
      (rule.any CDSLRule.fHasBindings → Local join) ∧
      bindKeys matched symLeft symRight
        (boundKeys engine rule symLeft symRight join result.leftSide model matched) = some bound ∧
      bindOutput join.outputColumns outputs bound = some result.model := by
  unfold fMatch at h
  split at h
  next symLeft symRight outputs symbols =>
    simp only at h
    split at h
    next => cases h
    next =>
      split at h
      next => cases h
      next guard =>
        have inputs : rule.any CDSLRule.fHasBindings = true → Local join := by
          intro bindings
          simp only [bindings, Bool.true_and, Bool.not_eq_true, Bool.not_eq_false',
            Bool.and_eq_true] at guard
          exact fLocal_iff.mp guard.2
        split at h
        next => cases h
        next residual =>
          have keys := residual_eq_nil_iff.mp (not_not.mp residual)
          obtain ⟨first, -, h⟩ := Option.bind_eq_some_iff.mp h
          obtain ⟨matched, -, h⟩ := Option.bind_eq_some_iff.mp h
          obtain ⟨bound, bindings, h⟩ := Option.bind_eq_some_iff.mp h
          obtain ⟨last, output, h⟩ := Option.bind_eq_some_iff.mp h
          split at h
          next =>
            cases h
            exact ⟨symLeft, symRight, outputs, matched, bound, symbols, keys, inputs, bindings,
              output⟩
          next => cases h
  next => cases h

def acceptAll (V : Type) : Engine V where
  fMatch := fun _ _ model => some model
  fCheck := fun _ _ => true
  fRowScalar := fun _ => true
  fSetJoinPred := fun _ _ _ _ => true

section Accepting
variable {rule : CDSLRule} {symLeft symRight : ℕ} {model probe : Model} {edges : List (ℕ × ℕ)}

def Probes (symLeft symRight : ℕ) (model : Model) (edges : List (ℕ × ℕ)) (probe : Model) : Prop :=
  ∀ sym value, probe sym = some value →
    (if sym = symLeft then some (.attrs (edges.map Prod.fst))
      else if sym = symRight then some (.attrs (edges.map Prod.snd)) else model sym) = some value

theorem probeModel_isSome {syms : List ℕ} (probes : Probes symLeft symRight model edges probe)
    (bound : ∀ sym ∈ syms, sym = symLeft ∨ sym = symRight ∨ (model sym).isSome) :
    (probeModel symLeft symRight model edges probe syms).isSome := by
  induction syms generalizing probe with
  | nil => rfl
  | cons sym rest ih =>
    obtain ⟨value, isValue⟩ : ∃ value, (if sym = symLeft then
        some (Binding.attrs (edges.map Prod.fst)) else if sym = symRight then
        some (.attrs (edges.map Prod.snd)) else model sym) = some value := by
      rw [← Option.isSome_iff_exists]
      rcases bound sym List.mem_cons_self with isLeft | isRight | known
      · simp [isLeft]
      · simp only [isRight]
        split <;> simp
      · split
        · simp
        · split
          · simp
          · exact known
    have binds : ∃ next, probe.fBind sameBinding sym value = some next ∧
        Probes symLeft symRight model edges next := by
      unfold CDSLModel.fBind
      split
      next existing found =>
        have same : existing = value := Option.some.inj ((probes sym existing found).symm.trans isValue)
        rw [sameBinding, if_pos (decide_eq_true same)]
        exact ⟨probe, rfl, probes⟩
      next fresh =>
        refine ⟨_, rfl, fun other held found => ?_⟩
        by_cases here : other = sym
        · subst here
          rw [Function.update_self] at found
          rw [isValue, found]
        · rw [Function.update_of_ne here] at found
          exact probes other held found
    obtain ⟨next, bindsNext, probesNext⟩ := binds
    rw [probeModel]
    simp only [isValue, bindsNext]
    exact ih probesNext fun other member => bound other (List.mem_cons_of_mem _ member)

theorem constraintsHold_acceptAll
    (bound : fAllOtherSourceSymbolsBound rule symLeft symRight model = true) :
    fConstraintsHoldWithJoinKeys (acceptAll V) rule symLeft symRight model edges = true := by
  have known : ∀ sym ∈ rule.sourceSymbols,
      sym = symLeft ∨ sym = symRight ∨ (model sym).isSome := by
    simpa [fAllOtherSourceSymbolsBound, or_assoc] using bound
  have probes : Probes symLeft symRight model edges .empty := by
    intro sym value found
    cases found
  obtain ⟨final, found⟩ := Option.isSome_iff_exists.mp (probeModel_isSome probes known)
  rw [fConstraintsHoldWithJoinKeys, found]
  rfl

theorem expectedJoinKeys_empty (rule : CDSLRule) (sym : ℕ) :
    pdrgpcrExpectedJoinKeys (some rule) sym .empty = none := by
  have loop : ∀ equalities, expectedLoop rule sym .empty none equalities = none := by
    intro equalities
    induction equalities with
    | nil => rfl
    | cons symbols rest ih =>
      rw [expectedLoop]
      split
      next => exact ih
      next => exact ih
  exact loop rule.attrsEq

theorem orientation_acceptAll (rule : CDSLRule) (leftSide : Side) (edges : List (ℕ × ℕ)) :
    fJoinOrientationConstraintsHold (acceptAll V) (some rule) symLeft symRight model leftSide edges =
      (fAllOtherSourceSymbolsBound rule symLeft symRight (otherBindings rule symLeft symRight model),
        fAllOtherSourceSymbolsBound rule symLeft symRight
          (otherBindings rule symLeft symRight model)) := by
  have inputs : ∀ side input model, (acceptAll V).fMatch side input model = some model :=
    fun _ _ _ => rfl
  simp only [fJoinOrientationConstraintsHold, inputs, Prod.mk.injEq, and_true]
  cases bound : fAllOtherSourceSymbolsBound rule symLeft symRight
      (otherBindings rule symLeft symRight model) with
  | false => rfl
  | true => rw [constraintsHold_acceptAll bound, Bool.and_self]

theorem leftInput_acceptAll (rule : CDSLRule) (edges : List (ℕ × ℕ)) :
    leftInput (acceptAll V) (some rule) 0 1 join .empty edges = .left := by
  have direct : fUseReverse (acceptAll V) (some rule) 0 1 .empty edges = false := by
    unfold fUseReverse
    simp only [expectedJoinKeys_empty, fJoinKeyOrientationCompatible, Option.all_none, Bool.and_self,
      if_true, orientation_acceptAll, Bool.and_not_self, Bool.false_and]
  rw [leftInput, direct, Bool.and_false]
  rfl

theorem boundKeys_acceptAll (rule : CDSLRule) :
    boundKeys (acceptAll V) (some rule) 0 1 join .left .empty .empty =
      (fSplitJoinPredicate join.predicate (join.output .left)).edges := by
  have aligned : ∀ edges, alignJoinKeys none none edges = edges := fun edges => rfl
  unfold boundKeys
  simp only [expectedJoinKeys_empty, aligned]
  split
  next =>
    unfold narrowEquivalentJoinKeysByConstraints
    simp only
    cases bound : fAllOtherSourceSymbolsBound rule 0 1 .empty with
    | false => simp
    | true => simp [constraintsHold_acceptAll bound]
  next => rfl

def keysModel (edges : List (ℕ × ℕ)) : Model :=
  Function.update (Function.update CDSLModel.empty 0 (some (.attrs (edges.map Prod.fst)))) 1
    (some (.attrs (edges.map Prod.snd)))

theorem fMatch_acceptAll (keys : KeyEqualities join.predicate (join.output .left))
    (permitted : rule.fHasBindings = true → Local join) :
    fMatch (acceptAll V) (some rule) ⟨join.fInner, [0, 1]⟩ join .empty =
      some ⟨keysModel (fSplitJoinPredicate join.predicate (join.output .left)).edges, .left⟩ := by
  have residual := residual_eq_nil_iff.mpr keys
  have guard : ((some rule).any CDSLRule.fHasBindings &&
      !((acceptAll V).fRowScalar join.predicate && fLocal join)) = false := by
    cases bindings : rule.fHasBindings with
    | false => simp [bindings]
    | true => simp [bindings, acceptAll, fLocal_iff.mpr (permitted bindings)]
  unfold fMatch
  simp only [residual, guard, leftInput_acceptAll]
  rw [if_neg (by simp), if_neg (by simp), if_neg (by simp)]
  have inputs : ∀ side input model, (acceptAll V).fMatch side input model = some model :=
    fun _ _ _ => rfl
  simp only [inputs, Option.bind_eq_bind, Option.bind_some, boundKeys_acceptAll]
  rfl

end Accepting

end Inversion

section Match
variable {V : Type} {join : LiveJoin V} {leftSide : Side}

/-- The keys are columns of the inputs, and the predicate is true of a pair of rows exactly if
the keys are equal. -/
structure ExactKeys (join : LiveJoin V) (leftSide : Side) (left right : List ℕ) : Prop where
  outputLeft : ∀ col ∈ left, col ∈ join.output leftSide
  outputRight : ∀ col ∈ right, col ∈ join.output leftSide.opposite
  truth : ∀ rowOf outer, Rows join rowOf →
    (join.predicate.truth (combine join rowOf outer) = some true ↔
      List.Forall₂ (fun a b => Identical (rowOf leftSide a) (rowOf leftSide.opposite b)) left right)

def ExactMatch (op : CDSLJoinOp) (join : LiveJoin V) (result : Matched) : Prop :=
  ∃ symLeft symRight outputs left right, op.symbols = symLeft :: symRight :: outputs ∧
    pdrgpcrAttrs result.model symLeft = some left ∧
    pdrgpcrAttrs result.model symRight = some right ∧
    ExactKeys join result.leftSide left right

/-- Where the predicate is true, the columns that its conjuncts compare have the same value: no
operator or cast makes it true of different ones. -/
def Identifies (join : LiveJoin V) : Prop :=
  ∀ rowOf outer, Rows join rowOf →
    join.predicate.truth (combine join rowOf outer) = some true →
    ∀ conjunct ∈ collectConjuncts join.predicate, ∀ a b, Equates a b conjunct →
      Identical (combine join rowOf outer a) (combine join rowOf outer b)

theorem identifies_of_identity
    (plain : ∀ comparison first second,
      Predicate.equality comparison first second ∈ collectConjuncts join.predicate →
      ∀ v w, comparison.holds v w = true → v = w) : Identifies join := by
  intro rowOf outer _ holds conjunct mem a b equates
  have holds := (truth_iff_conjuncts join.predicate).mp holds conjunct mem
  have identical : ∀ (comparison : Comparison V) (v w : Option V), comparison.truth v w = some true →
      (∀ v w, comparison.holds v w = true → v = w) → Identical v w := by
    rintro comparison (_ | v) (_ | w) truth same
    · cases truth
    · cases truth
    · cases truth
    · exact ⟨v, rfl, by rw [same v w (Option.some.inj truth)]⟩
  obtain ⟨comparison, rfl | rfl⟩ := equates
  · exact identical comparison _ _ holds (plain _ _ _ mem)
  · exact (identical comparison _ _ holds (plain _ _ _ mem)).symm

theorem Represents.all_identical_iff {edges narrowed : List (ℕ × ℕ)} {rowOf : Side → Row V}
    (h : Represents join leftSide edges narrowed) (rows : Rows join rowOf) :
    (∀ edge ∈ edges, Identical (rowOf leftSide edge.1) (rowOf leftSide.opposite edge.2)) ↔
      ∀ edge ∈ narrowed,
        Identical (rowOf leftSide edge.1) (rowOf leftSide.opposite edge.2) := by
  constructor
  · intro all edge mem
    exact all edge (h.1 mem)
  · intro all edge mem
    obtain ⟨other, known, same⟩ := h.2 rowOf rows edge mem
    obtain ⟨left, right⟩ := Prod.mk.inj same
    rw [left, right]
    exact all other known

theorem truth_iff_identical (keys : KeyEqualities join.predicate (join.output leftSide))
    (outputs : Outputs join leftSide (fSplitJoinPredicate join.predicate (join.output
      leftSide)).edges) (identifies : Identifies join) {rowOf : Side → Row V}
    (rows : Rows join rowOf) (outer : Row V) :
    join.predicate.truth (combine join rowOf outer) = some true ↔
      ∀ edge ∈ (fSplitJoinPredicate join.predicate (join.output leftSide)).edges,
        Identical (rowOf leftSide edge.1) (rowOf leftSide.opposite edge.2) := by
  constructor
  · rintro holds ⟨a, b⟩ mem
    obtain ⟨conjunct, known, -, -, equates⟩ := mem_edges_iff.mp mem
    have same := identifies rowOf outer rows holds conjunct known a b equates
    rwa [combine_of_mem (outputs _ mem).1, combine_of_mem (outputs _ mem).2] at same
  · intro all
    refine truth_of_edges keys fun edge mem => ?_
    rw [combine_of_mem (outputs edge mem).1, combine_of_mem (outputs edge mem).2]
    exact all edge mem

theorem Represents.exactKeys {edges : List (ℕ × ℕ)}
    (h : Represents join leftSide (fSplitJoinPredicate join.predicate (join.output
      leftSide)).edges edges) (keys : KeyEqualities join.predicate (join.output leftSide))
    (outputs : Outputs join leftSide (fSplitJoinPredicate join.predicate (join.output
      leftSide)).edges) (identifies : Identifies join) :
    ExactKeys join leftSide (edges.map Prod.fst) (edges.map Prod.snd) where
  outputLeft := by
    intro col mem
    obtain ⟨edge, known, rfl⟩ := List.mem_map.mp mem
    exact (outputs edge (h.1 known)).1
  outputRight := by
    intro col mem
    obtain ⟨edge, known, rfl⟩ := List.mem_map.mp mem
    exact (outputs edge (h.1 known)).2
  truth := by
    intro rowOf outer rows
    rw [List.forall₂_map_left_iff, List.forall₂_map_right_iff, List.forall₂_same,
      ← h.all_identical_iff rows, truth_iff_identical keys outputs identifies rows]

/-- What the matcher does not check of a predicate of key equalities. -/
def Trusted (rule : CDSLRule) (join : LiveJoin V) : Prop :=
  KeyEqualities join.predicate (join.output .left) →
    (rule.fHasBindings = true → Local join) → Local join ∧ Identifies join

theorem fMatch_exact {engine : Engine V} {rule : CDSLRule} {op : CDSLJoinOp}
    {model : Model} {result : Matched} (trusted : Trusted rule join)
    (h : fMatch engine (some rule) op join model = some result) : ExactMatch op join result := by
  obtain ⟨symLeft, symRight, outputs, matched, bound, symbols, keys, checked, bindings, output⟩ :=
    fMatch_cases h
  obtain ⟨inputs, identifies⟩ := trusted keys checked
  have columns := outputs_side inputs result.leftSide
  have represents := boundKeys_represents engine (some rule) symLeft symRight model matched columns
  obtain ⟨left, right⟩ := bindKeys_spec bindings
  have kept := bindOutput_extends outputs output
  refine ⟨symLeft, symRight, outputs, _, _, symbols, ?_, ?_,
    represents.exactKeys (keyEqualities_side inputs keys result.leftSide) columns identifies⟩
  · rw [pdrgpcrAttrs, kept _ _ left]
  · rw [pdrgpcrAttrs, kept _ _ right]

theorem trusted_of_exact {rule : CDSLRule}
    (exact : ∀ engine op model result, fMatch engine (some rule) op join model = some result →
      ExactMatch op join result) : Trusted rule join := by
  intro keys permitted
  obtain ⟨symLeft, symRight, outputs, left, right, symbols, boundLeft, boundRight, exactKeys⟩ :=
    exact _ _ _ _ (fMatch_acceptAll keys permitted)
  cases symbols
  cases boundLeft
  cases boundRight
  have edgeOf : ∀ conjunct ∈ collectConjuncts join.predicate,
      ∃ a ∈ join.output .left, ∃ b ∈ join.output .right, Equates a b conjunct ∧
        (a, b) ∈ (fSplitJoinPredicate join.predicate (join.output .left)).edges := by
    intro conjunct mem
    obtain ⟨a, inside, b, outside, equates⟩ := keys conjunct mem
    have edge := mem_edges_iff.mpr ⟨conjunct, mem, inside, outside, equates⟩
    exact ⟨a, inside, b, exactKeys.outputRight b (List.mem_map_of_mem edge), equates, edge⟩
  constructor
  · intro col used
    obtain ⟨conjunct, mem, used⟩ := (mem_used_iff _ col).mp used
    obtain ⟨a, inLeft, b, inRight, equates, -⟩ := edgeOf conjunct mem
    rcases (equates.mem_used_iff col).mp used with rfl | rfl
    · exact .inl inLeft
    · exact .inr inRight
  · intro rowOf outer rows holds conjunct mem c d equates
    obtain ⟨a, inLeft, b, inRight, known, edge⟩ := edgeOf conjunct mem
    have all := (exactKeys.truth rowOf outer rows).mp holds
    rw [List.forall₂_map_left_iff, List.forall₂_map_right_iff, List.forall₂_same] at all
    have same : Identical (combine join rowOf outer a) (combine join rowOf outer b) := by
      rw [combine_of_mem inLeft, combine_of_mem inRight]
      exact all (a, b) edge
    rcases known.columns equates with ⟨rfl, rfl⟩ | ⟨rfl, rfl⟩
    · exact same
    · exact same.symm

/-- The matches of a rule on a join bind exact keys exactly if the predicate is local and holds of
equal columns only, where the matcher does not check that itself. -/
theorem match_exact_iff (rule : CDSLRule) (join : LiveJoin V) :
    (∀ engine op model result, fMatch engine (some rule) op join model = some result →
      ExactMatch op join result) ↔ Trusted rule join :=
  ⟨trusted_of_exact, fun trusted _ _ _ _ h => fMatch_exact trusted h⟩

end Match

section Correlated

def sameNumber : Comparison ℕ := ⟨fun v w => v = w, by simp⟩

def correlatedJoin : LiveJoin ℕ where
  fInner := true
  output := fun
    | .left => [0]
    | .right => [1]
  predicate := .equality sameNumber (.column 0) (.column 2)
  outputColumns := [0, 1]
  equivalent := fun _ _ _ => false
  rows := fun _ _ => True
  disjoint := by simp
  sound := by simp

/-- A rule whose source is a join of two inputs with two key symbols, without constraints. -/
def plainRule : CDSLRule where
  fHasBindings := false
  sourceSymbols := [0, 1]
  attrsEq := []
  onSource := fun _ => true

/-- The column of the enclosing query is bound as the key of the right input, and the keys
differ on rows on which the predicate is true. -/
theorem correlatedJoin_binds_outer_column :
    fMatch (acceptAll ℕ) (some plainRule) ⟨true, [0, 1]⟩ correlatedJoin .empty =
      some ⟨keysModel [(0, 2)], .left⟩ ∧
    pdrgpcrAttrs (keysModel [(0, 2)]) 1 = some [2] ∧ 2 ∉ correlatedJoin.output .right ∧
    ∃ rowOf outer, Rows correlatedJoin rowOf ∧
      correlatedJoin.predicate.truth (combine correlatedJoin rowOf outer) = some true ∧
      ¬ Identical (rowOf .left 0) (rowOf .right 2) := by
  refine ⟨rfl, rfl, by decide, fun _ col => if col = 0 then some 7 else none,
    fun _ => some 7, fun _ => trivial, by decide, ?_⟩
  rintro ⟨value, -, missing⟩
  cases missing

-- with a peer of the first key bound to the outer column the inputs are commuted, and the
-- conjunct is among the keys of neither side
example :
    (fMatch (acceptAll ℕ) (some { plainRule with attrsEq := [[0, 5]] }) ⟨true, [0, 1]⟩
      correlatedJoin (Function.update CDSLModel.empty 5 (some (.attrs [2])))).map
        (fun result => (result.leftSide, result.model 0, result.model 1))
      = some (.right, some (.attrs []), some (.attrs [])) := by
  decide

end Correlated

end JoinMatcher
