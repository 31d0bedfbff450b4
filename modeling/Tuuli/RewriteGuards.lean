import Mathlib.Data.Finite.Prod
import Tuuli.RewriteRuns

/-!
The guards of the rewrite program: the fired cache, the lineages and the budgets.
The log of the applications is compared with the counters, which are 32 bits wide:
where a budget is compared with a counter it bounds itself, the counter cannot wrap;
the budgets per query and per node and the node budget also need that the run and
the expressions it installs are not too large for the counters.
-/
namespace RewriteProgram
open RulePolicy FuelLoops

theorem ulong_of_lt {n : ℕ} (h : n < ulongModulus) : ulong n = n :=
  Nat.mod_eq_of_lt h

theorem ulong_succ (n : ℕ) : ulong (ulong n + 1) = ulong (n + 1) := by
  simp [ulong]

namespace CExpression
variable {Op : Type} {opMatches : Op → Op → Bool}

mutual

theorem fMatches_refl (refl : ∀ op, opMatches op op = true) :
    ∀ expr : CExpression Op, expr.fMatches opMatches expr = true
  | node op children => by
    rw [fMatches, refl op, fMatchesList_refl refl children]
    rfl

theorem fMatchesList_refl (refl : ∀ op, opMatches op op = true) :
    ∀ children : List (CExpression Op), fMatchesList opMatches children children = true
  | [] => rfl
  | child :: rest => by
    rw [fMatchesList, child.fMatches_refl refl, fMatchesList_refl refl rest]
    rfl

end

end CExpression

namespace State
variable {Rule Op : Type}

def applicationsOf [DecidableEq Rule] (state : State Rule Op) (rule : Rule) : ℕ :=
  state.steps.countP fun step => step.rule = rule

def applicationsAt [DecidableEq Rule] (state : State Rule Op) (path : Path) (rule : Rule) : ℕ :=
  state.steps.countP fun step => step.path = path && step.rule = rule

def totalAdded (state : State Rule Op) : ℕ :=
  (state.steps.map fun step => step.target.nodes - step.source.nodes).sum

/-- The rules and sources in the fired cache. -/
def firedPairs (state : State Rule Op) : List (Rule × CExpression Op) :=
  state.fired.map fun entry => (entry.rule, entry.source)

def appliedPairs (state : State Rule Op) : List (Rule × CExpression Op) :=
  state.steps.map fun step => (step.rule, step.source)

end State

namespace CDSLRewriteProgram
variable {Rule Op : Type} [DecidableEq Rule]

/-- The trees that replacements by arbitrary outcomes of the rules can lead to. -/
inductive Reachable (program : CDSLRewriteProgram Rule Op) (root : CExpression Op) :
    CExpression Op → Prop
  | refl : Reachable program root root
  | step {tree tree' source target : CExpression Op} {phase : EDslRulePhase} {path : Path}
      {rule : Rule} {evaluations : ℕ} (reached : Reachable program root tree)
      (found : tree.resolve path = some source) (listed : rule ∈ program.rboRules phase)
      (decided : program.evaluate evaluations rule source = .ready target)
      (replaced : tree.replace path target = some tree') : Reachable program root tree'

def Occurs (program : CDSLRewriteProgram Rule Op) (root expr : CExpression Op) : Prop :=
  ∃ tree path, program.Reachable root tree ∧ tree.resolve path = some expr

structure Fits (program : CDSLRewriteProgram Rule Op) (steps : List (Step Rule Op)) : Prop where
  count : steps.length < ulongModulus
  source : ∀ step ∈ steps, step.source.nodes < ulongModulus
  target : ∀ step ∈ steps, step.target.nodes + program.hardAddedNodes < ulongModulus

/-- The budgets that are compared with a counter something else can advance. -/
structure WithinBudgets (program : CDSLRewriteProgram Rule Op) (state : State Rule Op) :
    Prop where
  perQuery : ∀ rule, (program.policy rule).budgetPerQuery ≠ 0 →
    state.applicationsOf rule ≤ (program.policy rule).budgetPerQuery
  perNode : ∀ path rule, (program.policy rule).budgetPerNode ≠ 0 →
    state.applicationsAt path rule ≤ (program.policy rule).budgetPerNode
  added : program.hardAddedNodes ≠ 0 →
    state.addedNodes = state.totalAdded ∧ state.totalAdded ≤ program.hardAddedNodes

structure Guarded (program : CDSLRewriteProgram Rule Op) (root : CExpression Op)
    (state : State Rule Op) : Prop where
  applications : state.applications = ulong state.steps.length
  ruleApplications : ∀ rule, state.ruleApplications rule = ulong (state.applicationsOf rule)
  nodeRuleApplications : ∀ key, state.nodeRuleApplications key =
    ulong (state.steps.countP fun step => program.nodeRuleKey step.path step.rule = key)
  hardSteps : program.hardSteps ≠ 0 → state.steps.length ≤ program.hardSteps
  perRule : ∀ rule, (program.policy rule).budgetPerRule ≠ 0 →
    state.applicationsOf rule ≤ (program.policy rule).budgetPerRule
  fingerprints : ∀ entry ∈ state.fired, entry.fingerprint = program.hashValue entry.source
  firedOnce : state.firedPairs.Nodup
  appliedFired : ∀ pair ∈ state.appliedPairs, pair ∈ state.firedPairs
  appliedOnce : state.appliedPairs.Nodup
  unseen : ∀ step ∈ state.steps, program.recorded step.seen step.target = false
  reachable : program.Reachable root state.root
  firedListed : ∀ pair ∈ state.firedPairs,
    (∃ phase, pair.1 ∈ program.rboRules phase) ∧ program.Occurs root pair.2
  budgets : program.Fits state.steps → program.WithinBudgets state

variable {program : CDSLRewriteProgram Rule Op} {root source : CExpression Op}
  {phase : EDslRulePhase} {path : Path} {rule : Rule} {state after : State Rule Op}

theorem guarded_init (program : CDSLRewriteProgram Rule Op) (root : CExpression Op) :
    program.Guarded root (State.init root) where
  applications := rfl
  ruleApplications := fun _ => rfl
  nodeRuleApplications := fun _ => rfl
  hardSteps := fun _ => Nat.zero_le _
  perRule := fun _ _ => Nat.zero_le _
  fingerprints := by simp [State.init]
  firedOnce := List.nodup_nil
  appliedFired := by simp [State.appliedPairs, State.init]
  appliedOnce := List.nodup_nil
  unseen := by simp [State.init]
  reachable := .refl
  firedListed := by simp [State.firedPairs, State.init]
  budgets := fun _ => ⟨fun _ _ => Nat.zero_le _, fun _ _ _ => Nat.zero_le _,
    fun _ => ⟨rfl, Nat.zero_le _⟩⟩

theorem Guarded.not_fired (guarded : program.Guarded root state)
    (fresh : program.fFired state rule (program.hashValue source) source = false) :
    (rule, source) ∉ state.firedPairs := by
  intro mem
  obtain ⟨entry, listed, same⟩ := List.mem_map.mp mem
  obtain ⟨rfl, rfl⟩ := Prod.mk.inj same
  have found : program.fFired state entry.rule (program.hashValue entry.source)
      entry.source = true := by
    rw [fFired, List.any_eq_true]
    refine ⟨entry, listed, ?_⟩
    simp [guarded.fingerprints entry listed, entry.source.fMatches_refl program.opMatches_refl]
  rw [fresh] at found
  cases found

theorem Guarded.recordAttempt (guarded : program.Guarded root state)
    (listed : rule ∈ program.rboRules phase) (found : state.root.resolve path = some source)
    (fresh : program.fFired state rule (program.hashValue source) source = false) :
    program.Guarded root (program.recordAttempt state path rule source) where
  applications := guarded.applications
  ruleApplications := guarded.ruleApplications
  nodeRuleApplications := guarded.nodeRuleApplications
  hardSteps := guarded.hardSteps
  perRule := guarded.perRule
  fingerprints := by
    intro entry mem
    rcases List.mem_cons.mp mem with rfl | mem
    · rfl
    · exact guarded.fingerprints entry mem
  firedOnce := List.nodup_cons.mpr ⟨guarded.not_fired fresh, guarded.firedOnce⟩
  appliedFired := fun pair mem => List.mem_cons_of_mem _ (guarded.appliedFired pair mem)
  appliedOnce := guarded.appliedOnce
  unseen := guarded.unseen
  reachable := guarded.reachable
  firedListed := by
    intro pair mem
    rcases List.mem_cons.mp mem with rfl | mem
    · exact ⟨⟨phase, listed⟩, state.root, path, guarded.reachable, found⟩
    · exact guarded.firedListed pair mem
  budgets := fun fits =>
    { perQuery := (guarded.budgets fits).perQuery
      perNode := (guarded.budgets fits).perNode
      added := (guarded.budgets fits).added }

omit [DecidableEq Rule] in
theorem fBudgetAvailable_spec {policy : SDSLRulePolicy}
    (h : program.fBudgetAvailable state path rule policy = true) :
    (program.hardSteps ≠ 0 → state.applications < program.hardSteps) ∧
      (policy.budgetPerRule ≠ 0 → state.ruleApplications rule < policy.budgetPerRule) ∧
      (policy.budgetPerQuery ≠ 0 → state.applications < policy.budgetPerQuery) ∧
      (policy.budgetPerNode ≠ 0 → state.nodeRuleApplications (program.nodeRuleKey path rule) <
        policy.budgetPerNode) := by
  unfold fBudgetAvailable at h
  split at h
  · cases h
  next hard =>
    split at h
    · cases h
    next perRule =>
      split at h
      · cases h
      next perQuery =>
        simp only [ne_eq, decide_not, Bool.or_eq_true, Bool.and_eq_true, Bool.not_eq_true',
          decide_eq_false_iff_not, decide_eq_true_eq, not_or, not_and, Nat.not_le]
          at hard perRule perQuery h
        refine ⟨hard.2, perRule, perQuery, fun nonzero => ?_⟩
        rcases h with zero | lt
        · exact absurd zero nonzero
        · exact lt

theorem addedNodes_eq {source target : CExpression Op} (hSource : source.nodes < ulongModulus)
    (hTarget : target.nodes < ulongModulus) :
    addedNodes source target = target.nodes - source.nodes := by
  rw [addedNodes, CExpression.ulNodes, CExpression.ulNodes, ulong_of_lt hSource,
    ulong_of_lt hTarget]
  split <;> omega

theorem WithinBudgets.install {target newRoot : CExpression Op}
    (guarded : program.Guarded root state)
    (available : program.fBudgetAvailable state path rule (program.policy rule) = true)
    (nodesFit : program.hardAddedNodes ≠ 0 → ulong (state.addedNodes + addedNodes source target) ≤
      program.hardAddedNodes)
    (fits : program.Fits (program.install state path rule source target newRoot).steps) :
    program.WithinBudgets (program.install state path rule source target newRoot) := by
  have count : state.steps.length + 1 < ulongModulus := fits.count
  have sourceFits := fits.source _ List.mem_cons_self
  have targetFits := fits.target _ List.mem_cons_self
  have before : program.WithinBudgets state := guarded.budgets
    { count := by omega
      source := fun step mem => fits.source step (List.mem_cons_of_mem _ mem)
      target := fun step mem => fits.target step (List.mem_cons_of_mem _ mem) }
  obtain ⟨_, _, perQuery, perNode⟩ := fBudgetAvailable_spec available
  constructor
  · intro other nonzero
    show List.countP _ (_ :: state.steps) ≤ _
    rw [List.countP_cons]
    split
    next same =>
      obtain rfl : rule = other := of_decide_eq_true same
      have room := perQuery nonzero
      rw [guarded.applications, ulong_of_lt (by omega)] at room
      have := @List.countP_le_length _ (fun step : Step Rule Op => decide (step.rule = rule))
        state.steps
      omega
    · exact before.perQuery other nonzero
  · intro place other nonzero
    show List.countP _ (_ :: state.steps) ≤ _
    rw [List.countP_cons]
    split
    next same =>
      obtain ⟨rfl, rfl⟩ : path = place ∧ rule = other := by simpa using same
      have room := perNode nonzero
      have short := @List.countP_le_length _ (fun step : Step Rule Op =>
        decide (program.nodeRuleKey step.path step.rule = program.nodeRuleKey path rule))
        state.steps
      rw [guarded.nodeRuleApplications, ulong_of_lt (by omega)] at room
      have shared : state.applicationsAt path rule ≤ _ := List.countP_mono_left
        (q := fun step : Step Rule Op =>
          decide (program.nodeRuleKey step.path step.rule = program.nodeRuleKey path rule))
        (fun step _ here => by simp_all [nodeRuleKey])
      unfold State.applicationsAt at shared
      omega
    · exact before.perNode place other nonzero
  · intro nonzero
    obtain ⟨counted, le⟩ := before.added nonzero
    have added := addedNodes_eq sourceFits (lt_of_le_of_lt (Nat.le_add_right _ _) targetFits)
    have room := nodesFit nonzero
    dsimp only at added targetFits
    rw [added, counted, ulong_of_lt (by omega)] at room
    have total : (program.install state path rule source target newRoot).totalAdded =
        (target.nodes - source.nodes) + state.totalAdded := rfl
    have counter : (program.install state path rule source target newRoot).addedNodes =
        ulong (state.addedNodes + addedNodes source target) := rfl
    rw [counter, total, added, counted, ulong_of_lt (by omega)]
    omega

theorem Guarded.install {target newRoot : CExpression Op} (guarded : program.Guarded root state)
    (available : program.fBudgetAvailable state path rule (program.policy rule) = true)
    (nodesFit : program.hardAddedNodes ≠ 0 → ulong (state.addedNodes + addedNodes source target) ≤
      program.hardAddedNodes) (unseen : program.fLineageContains state path target = false)
    (reached : program.Reachable root newRoot) (fired : (rule, source) ∈ state.firedPairs)
    (unapplied : (rule, source) ∉ state.appliedPairs) :
    program.Guarded root (program.install state path rule source target newRoot) := by
  obtain ⟨hardSteps, perRule, _, _⟩ := fBudgetAvailable_spec available
  constructor
  · show ulong (state.applications + 1) = ulong (state.steps.length + 1)
    rw [guarded.applications, ulong_succ]
  · intro other
    show Function.update state.ruleApplications rule
        (ulong (state.ruleApplications rule + 1)) other = ulong (List.countP _ (_ :: state.steps))
    rw [List.countP_cons]
    rcases eq_or_ne other rule with rfl | different
    · rw [Function.update_self, guarded.ruleApplications, ulong_succ]
      simp [State.applicationsOf]
    · rw [Function.update_of_ne different, guarded.ruleApplications]
      simp [State.applicationsOf, different.symm]
  · intro key
    show Function.update state.nodeRuleApplications (program.nodeRuleKey path rule)
        (ulong (state.nodeRuleApplications (program.nodeRuleKey path rule) + 1)) key =
      ulong (List.countP _ (_ :: state.steps))
    rw [List.countP_cons]
    rcases eq_or_ne key (program.nodeRuleKey path rule) with rfl | different
    · rw [Function.update_self, guarded.nodeRuleApplications, ulong_succ]
      simp
    · rw [Function.update_of_ne different, guarded.nodeRuleApplications]
      simp [different.symm]
  · intro nonzero
    have room := hardSteps nonzero
    have le := guarded.hardSteps nonzero
    rw [guarded.applications, ulong_of_lt (lt_of_le_of_lt le program.hardSteps_lt)] at room
    exact room
  · intro other nonzero
    show List.countP _ (_ :: state.steps) ≤ _
    rw [List.countP_cons]
    have le := guarded.perRule other nonzero
    split
    next same =>
      obtain rfl : rule = other := of_decide_eq_true same
      have room := perRule nonzero
      rw [guarded.ruleApplications,
        ulong_of_lt (lt_of_le_of_lt le (program.budgets_lt rule).2.1)] at room
      exact room
    · exact le
  · exact guarded.fingerprints
  · exact guarded.firedOnce
  · intro pair mem
    rcases List.mem_cons.mp mem with rfl | mem
    · exact fired
    · exact guarded.appliedFired pair mem
  · exact List.nodup_cons.mpr ⟨unapplied, guarded.appliedOnce⟩
  · intro step mem
    rcases List.mem_cons.mp mem with rfl | mem
    · exact unseen
    · exact guarded.unseen step mem
  · exact reached
  · exact guarded.firedListed
  · exact WithinBudgets.install guarded available nodesFit

theorem guarded_keeps (program : CDSLRewriteProgram Rule Op) (root : CExpression Op) :
    program.Keeps (program.Guarded root) where
  attempted := Guarded.recordAttempt
  installed := by
    rintro phase path source state after guarded found
      ⟨listed, fresh, decided, unseen, available, nodesFit, replaced⟩
    apply (guarded.recordAttempt listed found fresh).install available nodesFit unseen
    · exact .step guarded.reachable found listed decided replaced
    · exact List.mem_cons_self
    · intro mem
      exact guarded.not_fired fresh (guarded.appliedFired _ mem)

/-! ### Termination -/

theorem declines_of_hardSteps (nonzero : program.hardSteps ≠ 0) (root : CExpression Op) :
    program.Declines (program.Guarded root)
      fun state => program.hardSteps - state.steps.length where
  attempted := fun _ _ _ _ => le_refl _
  installed := by
    intro phase path source state after guarded found installs
    have le := ((guarded_keeps program root).installed guarded found installs).hardSteps nonzero
    cases installs
    show program.hardSteps - (state.steps.length + 1) < program.hardSteps - state.steps.length
    have longer : state.steps.length + 1 ≤ program.hardSteps := le
    omega

def fireable (program : CDSLRewriteProgram Rule Op) (root : CExpression Op) :
    Set (Rule × CExpression Op) :=
  {rule | ∃ phase, rule ∈ program.rboRules phase} ×ˢ {expr | program.Occurs root expr}

omit [DecidableEq Rule] in
theorem finite_listed (program : CDSLRewriteProgram Rule Op) :
    {rule | ∃ phase, rule ∈ program.rboRules phase}.Finite := by
  apply (List.finite_toSet (program.rboRules .normalize ++ program.rboRules .preJoin ++
    program.rboRules .cleanup ++ program.rboRules .explore)).subset
  intro rule ⟨phase, listed⟩
  cases phase <;> simp [listed]

theorem Guarded.fired_le (guarded : program.Guarded root state)
    (finite : (program.fireable root).Finite) : state.fired.length ≤ finite.toFinset.card := by
  classical
  have inside : state.firedPairs.toFinset ⊆ finite.toFinset := by
    intro pair mem
    rw [Set.Finite.mem_toFinset]
    exact guarded.firedListed pair (List.mem_toFinset.mp mem)
  calc state.fired.length = state.firedPairs.length := (List.length_map _).symm
    _ = state.firedPairs.toFinset.card :=
      (List.toFinset_card_of_nodup guarded.firedOnce).symm
    _ ≤ finite.toFinset.card := Finset.card_le_card inside

theorem declines_of_finite {root : CExpression Op} (finite : (program.fireable root).Finite) :
    program.Declines (program.Guarded root)
      fun state => finite.toFinset.card - state.fired.length where
  attempted := fun _ _ _ _ => Nat.sub_le_sub_left (Nat.le_succ _) _
  installed := by
    intro phase path source state after guarded found installs
    have le := ((guarded_keeps program root).installed guarded found installs).fired_le finite
    cases installs
    show finite.toFinset.card - (state.fired.length + 1) <
      finite.toFinset.card - state.fired.length
    have longer : state.fired.length + 1 ≤ finite.toFinset.card := le
    omega

/-! ### Main result -/

/-- With a hard step budget, or if only finitely many expressions can occur, the rewrite ends.
    In every state of a run no rule is evaluated or applied twice on one expression, the hard
    step budget and the budgets per rule are kept, and nothing is installed at a path that its
    lineage holds; the other budgets are kept if the run fits the counters. -/
theorem rewrite_terminates_within_budgets (program : CDSLRewriteProgram Rule Op)
    (root : CExpression Op) :
    (program.hardSteps ≠ 0 ∨ {expr | program.Occurs root expr}.Finite →
      ∃ final, Settles (fun fuel => program.pexprRewrite fuel root) final) ∧
    ∀ fuel state, program.pexprRewrite fuel root = .ok state ∨
        program.pexprRewrite fuel root = .error state →
      state.firedPairs.Nodup ∧ state.appliedPairs.Nodup ∧
      (program.hardSteps ≠ 0 → state.steps.length ≤ program.hardSteps) ∧
      (∀ rule, (program.policy rule).budgetPerRule ≠ 0 →
        state.applicationsOf rule ≤ (program.policy rule).budgetPerRule) ∧
      (∀ step ∈ state.steps, program.recorded step.seen step.target = false) ∧
      (program.Fits state.steps →
        (∀ rule, (program.policy rule).budgetPerQuery ≠ 0 →
          state.applicationsOf rule ≤ (program.policy rule).budgetPerQuery) ∧
        (∀ path rule, (program.policy rule).budgetPerNode ≠ 0 →
          state.applicationsAt path rule ≤ (program.policy rule).budgetPerNode) ∧
        (program.hardAddedNodes ≠ 0 → state.totalAdded ≤ program.hardAddedNodes)) := by
  have keeps := guarded_keeps program root
  have start := guarded_init program root
  constructor
  · rintro (nonzero | finite)
    · exact (declines_of_hardSteps nonzero root).pexprRewrite keeps root start
    · exact (declines_of_finite ((finite_listed program).prod finite)).pexprRewrite keeps
        root start
  · intro fuel state reached
    have yields := keeps.pexprRewrite fuel root start
    have guarded : program.Guarded root state := by
      rcases reached with same | same
      · rw [same] at yields
        exact yields
      · rw [same] at yields
        exact yields
    refine ⟨guarded.firedOnce, guarded.appliedOnce, guarded.hardSteps, guarded.perRule,
      guarded.unseen, fun fits => ?_⟩
    have budgets := guarded.budgets fits
    exact ⟨budgets.perQuery, budgets.perNode, fun nonzero => (budgets.added nonzero).2⟩

end CDSLRewriteProgram

/-! ### A target too large for the node counter -/

def doubling : ℕ → CExpression Bool
  | 0 => .node true []
  | n + 1 => .node true [doubling n, doubling n]

theorem nodes_doubling (n : ℕ) : (doubling n).nodes = 2 ^ (n + 1) - 1 := by
  induction n with
  | zero => rfl
  | succ n ih =>
    have positive : 0 < 2 ^ (n + 1) := Nat.two_pow_pos (n + 1)
    rw [doubling, CExpression.nodes, CExpression.nodesList, CExpression.nodesList,
      CExpression.nodesList, ih, Nat.pow_succ 2 (n + 1)]
    omega

def hugeTarget : CExpression Bool := .node true [doubling 31]

theorem nodes_hugeTarget : hugeTarget.nodes = 2 ^ 32 := by
  rw [hugeTarget, CExpression.nodes, CExpression.nodesList, CExpression.nodesList,
    nodes_doubling]
  rfl

/-- One rule that replaces every expression by `target`, with a step budget of one and a
    node budget of 100000. -/
def growing (target : CExpression Bool) : CDSLRewriteProgram Unit Bool where
  szIdentity := fun _ => "grow"
  ulRuleId := fun _ => 0
  candidates := fun _ => []
  evaluate := fun _ _ _ => .ready target
  rboRules := fun phase => if phase = .normalize then [()] else []
  policy := fun _ =>
    { defaultPolicy "grow" with
      placement := .rbo
      phase := .normalize
      order := .topDown
      fixpoint := true }
  fLogical := fun _ => true
  opMatches := fun a b => a == b
  opMatches_refl := by decide
  hashValue := fun _ => 0
  outerReferences := fun _ => ∅
  outputColumns := fun _ => ∅
  required := none
  fDMLQuery := false
  hasVolatileFunc := false
  hardSteps := 1
  hardAddedNodes := 100000
  hardSteps_lt := by decide
  hardAddedNodes_lt := by decide
  budgets_lt := by decide

section Growing
variable {children : List (CExpression Bool)}
open CDSLRewriteProgram

def grown (target : CExpression Bool) : State Unit Bool :=
  let program := growing target
  program.install (program.recordAttempt (State.init (.node false [])) [] () (.node false []))
    [] () (.node false []) target target

variable (small : (CExpression.node true children).ulNodes = 0)

include small

theorem growing_attempt :
    (growing (.node true children)).attempt [] (.node false []) ()
        (State.init (.node false [])) = (grown (.node true children), true) := by
  have room : ulong (0 + addedNodes (.node false []) (CExpression.node true children)) = 0 := by
    rw [addedNodes, small]
    rfl
  have fits : ¬ ((!(growing (.node true children)).fBudgetAvailable
      ((growing (.node true children)).recordAttempt (State.init (.node false [])) [] ()
        (.node false [])) [] () ((growing (.node true children)).policy ()) ||
      ((growing (.node true children)).hardAddedNodes ≠ 0 &&
        (growing (.node true children)).hardAddedNodes <
          ulong (0 + addedNodes (.node false []) (CExpression.node true children)))) = true) := by
    rw [room]
    exact Bool.false_ne_true
  exact if_neg fits

theorem growing_visit :
    (growing (.node true children)).fApplyAtNode .normalize .topDown [] (.node false [])
        (State.init (.node false [])) = (grown (.node true children), true) := by
  show (growing (.node true children)).attemptAll [] (.node false []) [()]
    (State.init (.node false [])) = _
  rw [attemptAll, growing_attempt small]

theorem growing_run :
    (growing (.node true children)).pexprRewrite 3 (.node false []) =
      .ok (grown (.node true children)) := by
  have first : (growing (.node true children)).topDownRound .normalize
      ⟨State.init (.node false []), [⟨[], false⟩], false⟩ =
        .ok (.inl ⟨grown (.node true children), [⟨[], false⟩], true⟩) := by
    have visit := growing_visit small
    simp only [State.init] at visit
    simp only [topDownRound, State.init, CExpression.resolve, visit]
    rfl
  have top : (growing (.node true children)).fRunTopDown 3 .normalize
      (State.init (.node false [])) = .ok (grown (.node true children), true) := by
    rw [fRunTopDown, rounds, first]
    rfl
  have phase : (growing (.node true children)).phaseRound 3 .normalize
      (State.init (.node false [])) = .ok (.inr (grown (.node true children))) := by
    rw [phaseRound, top]
    rfl
  have normalized : (growing (.node true children)).runPhase 3 .normalize
      (State.init (.node false [])) = .ok (grown (.node true children)) := by
    show rounds id _ 3 _ = _
    rw [rounds, phase]
  rw [pexprRewrite, normalized]
  rfl

end Growing

theorem hugeTarget_exceeds_node_budget :
    ∃ state, (growing hugeTarget).pexprRewrite 3 (.node false []) = .ok state ∧
      (growing hugeTarget).hardAddedNodes ≠ 0 ∧
      (growing hugeTarget).hardAddedNodes < state.totalAdded := by
  have small : hugeTarget.ulNodes = 0 := by
    rw [CExpression.ulNodes, nodes_hugeTarget]
    rfl
  refine ⟨grown hugeTarget, growing_run small, by decide, ?_⟩
  show 100000 < hugeTarget.nodes - 1 + 0
  rw [nodes_hugeTarget]
  decide

/-! ### The meaning of the query -/

variable {Rule Op : Type} {refines : CExpression Op → CExpression Op → Prop}
open CExpression

/-- A preorder kept by every operator, such as having the same rows, or no others. -/
structure Compositional (refines : CExpression Op → CExpression Op → Prop) : Prop where
  refl : ∀ expr, refines expr expr
  trans : ∀ {a b c}, refines a b → refines b c → refines a c
  child : ∀ {op children index before after}, children[index]? = some before →
    refines before after → refines (node op children) (node op (children.set index after))

theorem Compositional.replace (compositional : Compositional refines)
    {root source target newRoot : CExpression Op} {path : Path}
    (found : root.resolve path = some source) (step : refines source target)
    (replaced : root.replace path target = some newRoot) : refines root newRoot := by
  fun_induction CExpression.replace root path target generalizing newRoot with
  | case1 =>
    cases found
    cases replaced
    exact step
  | case2 => cases replaced
  | case3 op children index path _ child hChild ih =>
    obtain ⟨newChild, inner, rfl⟩ := Option.map_eq_some_iff.mp replaced
    rw [resolve, hChild] at found
    exact compositional.child hChild (ih found step inner)

/-- Rules that keep the meaning of what they match keep that of the query. -/
theorem rewrite_keeps_meaning [DecidableEq Rule] (program : CDSLRewriteProgram Rule Op)
    (compositional : Compositional refines)
    (sound : ∀ phase, ∀ rule ∈ program.rboRules phase, ∀ evaluations source target,
      program.evaluate evaluations rule source = .ready target → refines source target)
    (fuel : ℕ) (root : CExpression Op) :
    Yields (refines root ·.root) (refines root ·.root) (program.pexprRewrite fuel root) := by
  have keeps : program.Keeps (refines root ·.root) := by
    constructor
    · intro _ _ _ _ _ holds _ _ _
      exact holds
    · intro phase path source state after holds found installs
      obtain ⟨listed, _, decided, _, _, _, replaced⟩ := installs
      exact compositional.trans holds
        (compositional.replace found (sound _ _ listed _ _ _ decided) replaced)
  exact keeps.pexprRewrite fuel root (compositional.refl root)

inductive BagOp where
  | table (rows : List ℕ)
  | unionAll
  | distinct

mutual

def rows : CExpression BagOp → List ℕ
  | node (.table rows) _ => rows
  | node .unionAll children => rowsAll children
  | node .distinct children => (rowsAll children).dedup

def rowsAll : List (CExpression BagOp) → List ℕ
  | [] => []
  | child :: rest => rows child ++ rowsAll rest

end

theorem rowsAll_set {children : List (CExpression BagOp)} {index : ℕ}
    {before after : CExpression BagOp} (found : children[index]? = some before)
    (same : rows before = rows after) : rowsAll children = rowsAll (children.set index after) := by
  induction children generalizing index with
  | nil => simp at found
  | cons child rest ih =>
    cases index with
    | zero =>
      obtain rfl : child = before := by simpa using found
      simp only [List.set_cons_zero, rowsAll, same]
    | succ index => simp only [List.set_cons_succ, rowsAll, ih (by simpa using found)]

theorem rows_compositional : Compositional fun before after => rows before = rows after where
  refl _ := rfl
  trans first second := first.trans second
  child {op _ _ _ _} found same := by
    cases op with
    | table => rfl
    | unionAll => simp only [rows, rowsAll_set found same]
    | distinct => simp only [rows, rowsAll_set found same]

/-- `Distinct(Distinct(x))` becomes `Distinct(x)`. -/
def collapse : CExpression BagOp → Decision BagOp
  | node .distinct [node .distinct inputs] => .ready (node .distinct inputs)
  | _ => .matchRejected

theorem collapse_rows {source target : CExpression BagOp} (ready : collapse source = .ready target) :
    rows source = rows target := by
  unfold collapse at ready
  split at ready
  · cases ready
    simp only [rows, rowsAll, List.append_nil, List.dedup_idem]
  · cases ready

def collapsing : CDSLRewriteProgram Unit BagOp where
  szIdentity := fun _ => "collapse"
  ulRuleId := fun _ => 0
  candidates := fun _ => []
  evaluate := fun _ _ => collapse
  rboRules := fun phase => if phase = .normalize then [()] else []
  policy := fun _ =>
    { defaultPolicy "collapse" with
      placement := .rbo
      phase := .normalize
      order := .bottomUp
      fixpoint := true }
  fLogical := fun _ => true
  opMatches := fun a b =>
    match a, b with
    | .table rows, .table rows' => rows == rows'
    | .unionAll, .unionAll => true
    | .distinct, .distinct => true
    | _, _ => false
  opMatches_refl := by
    intro op
    cases op <;> simp
  hashValue := fun _ => 0
  outerReferences := fun _ => ∅
  outputColumns := fun _ => {0}
  required := some {0}
  fDMLQuery := false
  hasVolatileFunc := false
  hardSteps := 64
  hardAddedNodes := 4096
  hardSteps_lt := by decide
  hardAddedNodes_lt := by decide
  budgets_lt := by decide

def twiceDistinct : CExpression BagOp :=
  node .unionAll [node .distinct [node .distinct [node (.table [1, 1]) []]], node (.table [2]) []]

/-- The rule is applied below the root, in the first input of the union. -/
theorem collapsing_run :
    ∃ final, collapsing.pexprRewrite 20 twiceDistinct = .ok final ∧
      final.steps.map Step.path = [[0]] ∧ final.root.nodes < twiceDistinct.nodes := by
  have ends : (collapsing.pexprRewrite 20 twiceDistinct).toOption.map (fun final =>
      (final.steps.map Step.path, decide (final.root.nodes < twiceDistinct.nodes)))
      = some ([[0]], true) := by
    decide +kernel
  cases run : collapsing.pexprRewrite 20 twiceDistinct with
  | error cut =>
    rw [run] at ends
    cases ends
  | ok final =>
    rw [run] at ends
    obtain ⟨paths, smaller⟩ := Prod.mk.inj (Option.some.inj ends)
    exact ⟨final, rfl, paths, of_decide_eq_true smaller⟩

theorem collapsing_keeps_rows :
    ∃ final, collapsing.pexprRewrite 20 twiceDistinct = .ok final ∧
      final.steps.map Step.path = [[0]] ∧ final.root.nodes < twiceDistinct.nodes ∧
      rows twiceDistinct = rows final.root := by
  obtain ⟨final, run, paths, smaller⟩ := collapsing_run
  refine ⟨final, run, paths, smaller, ?_⟩
  -- the program is a variable below, so that nothing runs it again
  have sound : ∀ phase, ∀ rule ∈ collapsing.rboRules phase, ∀ evaluations source target,
      collapsing.evaluate evaluations rule source = .ready target → rows source = rows target :=
    fun _ _ _ _ _ _ ready => collapse_rows ready
  generalize collapsing = program at run sound
  have keeps := rewrite_keeps_meaning program rows_compositional sound 20 twiceDistinct
  rw [run] at keeps
  exact keeps

end RewriteProgram
