import Mathlib.Algebra.Group.Nat.Defs
import Mathlib.Data.Finset.Basic
import Tuuli.FuelLoops
import Tuuli.RulePolicy

/-!
`CDSLRewriteProgram`, the scheduler of the rules placed in the RBO phases: two
worklist drivers that try the rules of a phase at each node of the tree and start
over at a node after each application, under a cache of fired rules, a record of
the expressions seen at each path and several budgets. What a rule decides is
arbitrary: its outcome may differ each time it is evaluated. Counters are `ULONG`,
32 bits wide.
-/
namespace RewriteProgram
open RulePolicy FuelLoops

def ulongModulus : ℕ := 2 ^ 32

def ulong (n : ℕ) : ℕ := n % ulongModulus

inductive CExpression (Op : Type) where
  | node (op : Op) (children : List (CExpression Op))

abbrev Path := List ℕ

namespace CExpression
variable {Op : Type}

def op : CExpression Op → Op
  | node op _ => op

def children : CExpression Op → List (CExpression Op)
  | node _ children => children

def arity (expr : CExpression Op) : ℕ := expr.children.length

mutual

def nodes : CExpression Op → ℕ
  | node _ children => 1 + nodesList children

def nodesList : List (CExpression Op) → ℕ
  | [] => 0
  | child :: rest => child.nodes + nodesList rest

end

def ulNodes (expr : CExpression Op) : ℕ := ulong expr.nodes

def resolve : CExpression Op → Path → Option (CExpression Op)
  | expr, [] => some expr
  | node _ children, child :: path =>
    match children[child]? with
    | none => none
    | some expr => expr.resolve path

/-- `PexprReplace`, which rebuilds the ancestors of the replaced node. -/
def replace : CExpression Op → Path → CExpression Op → Option (CExpression Op)
  | _, [], replacement => some replacement
  | node op children, child :: path, replacement =>
    match children[child]? with
    | none => none
    | some expr => (expr.replace path replacement).map fun rebuilt =>
        node op (children.set child rebuilt)

mutual

def fMatches (opMatches : Op → Op → Bool) : CExpression Op → CExpression Op → Bool
  | node op children, node op' children' =>
    opMatches op op' && fMatchesList opMatches children children'

def fMatchesList (opMatches : Op → Op → Bool) :
    List (CExpression Op) → List (CExpression Op) → Bool
  | [], [] => true
  | child :: rest, child' :: rest' =>
    child.fMatches opMatches child' && fMatchesList opMatches rest rest'
  | _, _ => false

end

end CExpression

/-- The outcome of evaluating a rule on a source expression. -/
inductive Decision (Op : Type) where
  | matchRejected
  | constraintRejected
  | instantiateRejected
  | duplicate
  | ready (target : CExpression Op)

/-- The engine, the policy snapshot and the limits a program is constructed with. The
    outcome of a rule also depends on the number of evaluations made before. -/
structure CDSLRewriteProgram (Rule Op : Type) where
  szIdentity : Rule → String
  ulRuleId : Rule → ℕ
  candidates : CExpression Op → List Rule
  evaluate : ℕ → Rule → CExpression Op → Decision Op
  rboRules : EDslRulePhase → List Rule
  policy : Rule → SDSLRulePolicy
  fLogical : Op → Bool
  opMatches : Op → Op → Bool
  opMatches_refl : ∀ op, opMatches op op = true
  hashValue : CExpression Op → ℕ
  outerReferences : CExpression Op → Finset ℕ
  outputColumns : CExpression Op → Finset ℕ
  required : Option (Finset ℕ)
  fDMLQuery : Bool
  hasVolatileFunc : Bool
  hardSteps : ℕ
  hardAddedNodes : ℕ
  hardSteps_lt : hardSteps < ulongModulus
  hardAddedNodes_lt : hardAddedNodes < ulongModulus
  budgets_lt : ∀ rule, (policy rule).budgetPerNode < ulongModulus ∧
    (policy rule).budgetPerRule < ulongModulus ∧ (policy rule).budgetPerQuery < ulongModulus

structure SFiredEntry (Rule Op : Type) where
  rule : Rule
  fingerprint : ℕ
  source : CExpression Op

/-- A record of one application: the lineage of the path just before it is `seen`. -/
structure Step (Rule Op : Type) where
  path : Path
  rule : Rule
  source : CExpression Op
  target : CExpression Op
  seen : List (CExpression Op)

/-- The members of a running program with the current root. The log of the applications,
    newest first, and the number of evaluations are not read by the code. -/
structure State (Rule Op : Type) where
  root : CExpression Op
  fired : List (SFiredEntry Rule Op)
  lineages : Path → List (CExpression Op)
  ruleApplications : Rule → ℕ
  nodeRuleApplications : Path × String → ℕ
  nonFixpointApplications : List (Path × String)
  applications : ℕ
  addedNodes : ℕ
  hardBudgetExhausted : Bool
  evaluations : ℕ
  steps : List (Step Rule Op)

def State.init {Rule Op : Type} (root : CExpression Op) : State Rule Op :=
  { root := root
    fired := []
    lineages := fun _ => []
    ruleApplications := fun _ => 0
    nodeRuleApplications := fun _ => 0
    nonFixpointApplications := []
    applications := 0
    addedNodes := 0
    hardBudgetExhausted := false
    evaluations := 0
    steps := [] }

structure SWorkItem where
  path : Path
  childrenVisited : Bool

namespace CDSLRewriteProgram
variable {Rule Op : Type} [DecidableEq Rule] (program : CDSLRewriteProgram Rule Op)

/-- The key of `StrNodeRuleKey`; the text `path@identity` determines both parts. -/
def nodeRuleKey (path : Path) (rule : Rule) : Path × String :=
  (path, program.szIdentity rule)

def szSafetyFailure (policy : SDSLRulePolicy) (source target : CExpression Op) : Option String :=
  if !program.fLogical source.op || !program.fLogical target.op then
    some "non_logical_boundary"
  else if ¬ program.outerReferences target ⊆ program.outerReferences source then
    some "outer_references_expanded"
  else if program.fDMLQuery then some "dml_boundary"
  else if program.hasVolatileFunc then some "volatile_query"
  else if policy.effect = .changesJoinGraph ∧ policy.phase ≠ .preJoin then
    some "join_graph_change_outside_pre_join"
  else none

def szRootSafetyFailure (sourceRoot targetRoot : CExpression Op) : Option String :=
  match program.required with
  | some required =>
    if ¬ required ⊆ program.outputColumns targetRoot then
      some "required_output_columns_removed"
    else if ¬ program.outerReferences targetRoot ⊆ program.outerReferences sourceRoot then
      some "root_outer_references_expanded"
    else none
  | none =>
    if ¬ program.outerReferences targetRoot ⊆ program.outerReferences sourceRoot then
      some "root_outer_references_expanded"
    else none

def fFired (state : State Rule Op) (rule : Rule) (fingerprint : ℕ) (source : CExpression Op) :
    Bool :=
  state.fired.any fun entry =>
    entry.rule = rule && entry.fingerprint = fingerprint &&
      entry.source.fMatches program.opMatches source

def recorded (lineage : List (CExpression Op)) (expr : CExpression Op) : Bool :=
  lineage.any fun previous =>
    program.hashValue previous = program.hashValue expr &&
      previous.fMatches program.opMatches expr

def fLineageContains (state : State Rule Op) (path : Path) (expr : CExpression Op) : Bool :=
  program.recorded (state.lineages path) expr

def recordFired (state : State Rule Op) (rule : Rule) (fingerprint : ℕ) (source : CExpression Op) :
    State Rule Op :=
  { state with fired := ⟨rule, fingerprint, source⟩ :: state.fired }

def recordLineage (state : State Rule Op) (path : Path) (expr : CExpression Op) : State Rule Op :=
  { state with
    lineages :=
      if program.fLineageContains state path expr then state.lineages
      else Function.update state.lineages path (state.lineages path ++ [expr]) }

def fCandidate (candidates : List Rule) (rule : Rule) : Bool :=
  program.ulRuleId rule = 0 || rule ∈ candidates

def fBudgetAvailable (state : State Rule Op) (path : Path) (rule : Rule) (policy : SDSLRulePolicy) :
    Bool :=
  if state.hardBudgetExhausted ||
      (program.hardSteps ≠ 0 && program.hardSteps ≤ state.applications) then false
  else if policy.budgetPerRule ≠ 0 && policy.budgetPerRule ≤ state.ruleApplications rule then
    false
  else if policy.budgetPerQuery ≠ 0 && policy.budgetPerQuery ≤ state.applications then false
  else policy.budgetPerNode = 0 ||
    state.nodeRuleApplications (program.nodeRuleKey path rule) < policy.budgetPerNode

def reserveBudget (state : State Rule Op) (path : Path) (rule : Rule) (policy : SDSLRulePolicy)
    (addedNodes : ℕ) : State Rule Op :=
  let key := program.nodeRuleKey path rule
  let applications := ulong (state.applications + 1)
  let total := ulong (state.addedNodes + addedNodes)
  { state with
    applications := applications
    ruleApplications := Function.update state.ruleApplications rule
      (ulong (state.ruleApplications rule + 1))
    nodeRuleApplications := Function.update state.nodeRuleApplications key
      (ulong (state.nodeRuleApplications key + 1))
    addedNodes := total
    nonFixpointApplications :=
      if policy.fixpoint then state.nonFixpointApplications
      else key :: state.nonFixpointApplications
    hardBudgetExhausted :=
      if (program.hardSteps ≠ 0 && program.hardSteps ≤ applications) ||
          (program.hardAddedNodes ≠ 0 && program.hardAddedNodes ≤ total) then true
      else state.hardBudgetExhausted }

/-- The increase in nodes as `ULONG`s, zero if the target is not larger. -/
def addedNodes (source target : CExpression Op) : ℕ :=
  if source.ulNodes < target.ulNodes then target.ulNodes - source.ulNodes else 0

def recordAttempt (state : State Rule Op) (path : Path) (rule : Rule) (source : CExpression Op) :
    State Rule Op :=
  { program.recordLineage
      (recordFired state rule (program.hashValue source) source) path source with
    evaluations := state.evaluations + 1 }

def install (state : State Rule Op) (path : Path) (rule : Rule)
    (source target newRoot : CExpression Op) : State Rule Op :=
  { program.reserveBudget (program.recordLineage state path target) path rule
      (program.policy rule) (addedNodes source target) with
    root := newRoot
    steps := ⟨path, rule, source, target, state.lineages path⟩ :: state.steps }

/-- One iteration of the rule loop of `FApplyAtNode`; the flag says that the rule was
    applied. -/
def attempt (path : Path) (source : CExpression Op) (rule : Rule) (state : State Rule Op) :
    State Rule Op × Bool :=
  let policy := program.policy rule
  if !policy.fixpoint && program.nodeRuleKey path rule ∈ state.nonFixpointApplications then
    (state, false)
  else if program.fFired state rule (program.hashValue source) source then (state, false)
  else
    let after := program.recordAttempt state path rule source
    match program.evaluate state.evaluations rule source with
    | .ready target =>
      if (program.szSafetyFailure policy source target).isSome then (after, false)
      else if program.fLineageContains after path target then (after, false)
      else if !program.fBudgetAvailable after path rule policy ||
          (program.hardAddedNodes ≠ 0 &&
            program.hardAddedNodes < ulong (after.addedNodes + addedNodes source target)) then
        (after, false)
      else
        match after.root.replace path target with
        | none => (after, false)
        | some newRoot =>
          if (program.szRootSafetyFailure after.root newRoot).isSome then (after, false)
          else (program.install after path rule source target newRoot, true)
    | _ => (after, false)

def attemptAll (path : Path) (source : CExpression Op) :
    List Rule → State Rule Op → State Rule Op × Bool
  | [], state => (state, false)
  | rule :: rest, state =>
    match program.attempt path source rule state with
    | (after, true) => (after, true)
    | (after, false) => attemptAll path source rest after

def orderedRules (phase : EDslRulePhase) (order : EDslRuleOrder) (source : CExpression Op) :
    List Rule :=
  (program.rboRules phase).filter fun rule =>
    order = (program.policy rule).order &&
      program.fCandidate (program.candidates source) rule

def fApplyAtNode (phase : EDslRulePhase) (order : EDslRuleOrder) (path : Path)
    (source : CExpression Op) (state : State Rule Op) : State Rule Op × Bool :=
  if state.hardBudgetExhausted || !program.fLogical source.op then (state, false)
  else program.attemptAll path source (program.orderedRules phase order source) state

def childItems (path : Path) (arity : ℕ) : List SWorkItem :=
  (List.range arity).map fun child => ⟨path ++ [child], false⟩

structure Driver (Rule Op : Type) where
  state : State Rule Op
  worklist : List SWorkItem
  changed : Bool

abbrev Round (Rule Op : Type) :=
  Except (State Rule Op) (Driver Rule Op ⊕ State Rule Op × Bool)

def topDownRound (phase : EDslRulePhase) (driver : Driver Rule Op) : Round Rule Op :=
  match driver.worklist with
  | [] => .ok (.inr (driver.state, driver.changed))
  | item :: rest =>
    if driver.state.hardBudgetExhausted then .ok (.inr (driver.state, driver.changed))
    else
      match driver.state.root.resolve item.path with
      | none => .ok (.inl { driver with worklist := rest })
      | some node =>
        match program.fApplyAtNode phase .topDown item.path node driver.state with
        | (after, true) => .ok (.inl ⟨after, ⟨item.path, false⟩ :: rest, true⟩)
        | (after, false) =>
          .ok (.inl ⟨after, childItems item.path node.arity ++ rest, driver.changed⟩)

def bottomUpRound (phase : EDslRulePhase) (driver : Driver Rule Op) : Round Rule Op :=
  match driver.worklist with
  | [] => .ok (.inr (driver.state, driver.changed))
  | item :: rest =>
    if driver.state.hardBudgetExhausted then .ok (.inr (driver.state, driver.changed))
    else
      match driver.state.root.resolve item.path with
      | none => .ok (.inl { driver with worklist := rest })
      | some node =>
        if !item.childrenVisited then
          .ok (.inl { driver with
            worklist := childItems item.path node.arity ++ ⟨item.path, true⟩ :: rest })
        else
          match program.fApplyAtNode phase .bottomUp item.path node driver.state with
          | (after, true) => .ok (.inl ⟨after, ⟨item.path, false⟩ :: rest, true⟩)
          | (after, false) => .ok (.inl ⟨after, rest, driver.changed⟩)

def fRunTopDown (fuel : ℕ) (phase : EDslRulePhase) (state : State Rule Op) :
    Except (State Rule Op) (State Rule Op × Bool) :=
  rounds Driver.state (program.topDownRound phase) fuel ⟨state, [⟨[], false⟩], false⟩

def fRunBottomUp (fuel : ℕ) (phase : EDslRulePhase) (state : State Rule Op) :
    Except (State Rule Op) (State Rule Op × Bool) :=
  rounds Driver.state (program.bottomUpRound phase) fuel ⟨state, [⟨[], false⟩], false⟩

def phaseRound (fuel : ℕ) (phase : EDslRulePhase) (state : State Rule Op) :
    Except (State Rule Op) (State Rule Op ⊕ State Rule Op) := do
  let (afterTopDown, changedTopDown) ← program.fRunTopDown fuel phase state
  let (afterBottomUp, changedBottomUp) ← program.fRunBottomUp fuel phase afterTopDown
  if (changedBottomUp || changedTopDown) && !afterBottomUp.hardBudgetExhausted then
    pure (.inl afterBottomUp)
  else pure (.inr afterBottomUp)

def runPhase (fuel : ℕ) (phase : EDslRulePhase) (state : State Rule Op) :
    Except (State Rule Op) (State Rule Op) :=
  if (program.rboRules phase).isEmpty then pure state
  else rounds id (program.phaseRound fuel phase) fuel state

def pexprRewrite (fuel : ℕ) (root : CExpression Op) :
    Except (State Rule Op) (State Rule Op) := do
  let normalized ← program.runPhase fuel .normalize (State.init root)
  let prepared ← program.runPhase fuel .preJoin normalized
  program.runPhase fuel .cleanup prepared

end CDSLRewriteProgram

end RewriteProgram
