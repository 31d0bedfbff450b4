import Mathlib.Algebra.BigOperators.Ring.List
import Mathlib.Algebra.Ring.Nat
import Tuuli.RewriteProgram

/-!
The runs of a rewrite program. What one visit of a node can do is said once: it
records attempts, and at most one rule is then installed. A property kept by these
two steps holds in every state a run meets, also when the run is cut short; and if
each installation decreases a number, the run ends.
-/
namespace RewriteProgram
open RulePolicy FuelLoops

namespace CDSLRewriteProgram
variable {Rule Op : Type} {program : CDSLRewriteProgram Rule Op}
  {phase : EDslRulePhase} {path : Path} {source : CExpression Op} {rule : Rule}
  {state after : State Rule Op}

@[simp] theorem recordAttempt_root (state : State Rule Op) (path : Path) (rule : Rule)
    (source : CExpression Op) : (program.recordAttempt state path rule source).root = state.root :=
  rfl

variable [DecidableEq Rule]

/-- The rule is not in the fired cache, and its outcome passes every check. -/
inductive Installs (program : CDSLRewriteProgram Rule Op) (phase : EDslRulePhase)
    (path : Path) (source : CExpression Op) (state : State Rule Op) : State Rule Op → Prop
  | intro {rule : Rule} {target newRoot : CExpression Op}
      (listed : rule ∈ program.rboRules phase)
      (fresh : program.fFired state rule (program.hashValue source) source = false)
      (decided : program.evaluate state.evaluations rule source = .ready target)
      (unseen : program.fLineageContains (program.recordAttempt state path rule source) path
        target = false)
      (available : program.fBudgetAvailable (program.recordAttempt state path rule source)
        path rule (program.policy rule) = true)
      (nodesFit : program.hardAddedNodes ≠ 0 →
        ulong ((program.recordAttempt state path rule source).addedNodes +
          addedNodes source target) ≤ program.hardAddedNodes)
      (replaced : state.root.replace path target = some newRoot) :
      Installs program phase path source state
        (program.install (program.recordAttempt state path rule source) path rule source
          target newRoot)

/-- Rules evaluated one after the other without being applied. -/
inductive Rejects (program : CDSLRewriteProgram Rule Op) (phase : EDslRulePhase)
    (path : Path) (source : CExpression Op) : State Rule Op → State Rule Op → Prop
  | refl (state : State Rule Op) : Rejects program phase path source state state
  | next {rule : Rule} {state after : State Rule Op} (listed : rule ∈ program.rboRules phase)
      (fresh : program.fFired state rule (program.hashValue source) source = false)
      (rest : Rejects program phase path source
        (program.recordAttempt state path rule source) after) :
      Rejects program phase path source state after

theorem Rejects.root (h : program.Rejects phase path source state after) :
    after.root = state.root := by
  induction h with
  | refl => rfl
  | next _ _ _ ih => rw [ih, recordAttempt_root]

theorem attempt_cases (path : Path) (source : CExpression Op) (state : State Rule Op)
    (listed : rule ∈ program.rboRules phase) :
    program.attempt path source rule state = (state, false) ∨
      program.fFired state rule (program.hashValue source) source = false ∧
        program.attempt path source rule state =
          (program.recordAttempt state path rule source, false) ∨
      ∃ after, program.attempt path source rule state = (after, true) ∧
        program.Installs phase path source state after := by
  unfold attempt
  dsimp only
  split
  · exact Or.inl rfl
  · split
    · exact Or.inl rfl
    next fresh =>
      have fresh := Bool.eq_false_iff.mpr fresh
      split
      next target decided =>
        split
        · exact Or.inr (Or.inl ⟨fresh, rfl⟩)
        · split
          · exact Or.inr (Or.inl ⟨fresh, rfl⟩)
          next unseen =>
            split
            · exact Or.inr (Or.inl ⟨fresh, rfl⟩)
            next budget =>
              split
              · exact Or.inr (Or.inl ⟨fresh, rfl⟩)
              next newRoot replaced =>
                split
                · exact Or.inr (Or.inl ⟨fresh, rfl⟩)
                · rw [recordAttempt_root] at replaced
                  simp only [Bool.or_eq_true, Bool.not_eq_true', Bool.and_eq_true,
                    decide_eq_true_eq, not_or, not_and, Nat.not_lt] at budget
                  exact Or.inr (Or.inr ⟨_, rfl, .intro listed fresh decided
                    (Bool.eq_false_iff.mpr unseen) (by simpa using budget.1) budget.2
                    replaced⟩)
      · exact Or.inr (Or.inl ⟨fresh, rfl⟩)

theorem attemptAll_cases {rules : List Rule}
    (listed : ∀ rule ∈ rules, rule ∈ program.rboRules phase) (state : State Rule Op) :
    (∃ after, program.attemptAll path source rules state = (after, false) ∧
      program.Rejects phase path source state after) ∨
    ∃ mid after, program.attemptAll path source rules state = (after, true) ∧
      program.Rejects phase path source state mid ∧
      program.Installs phase path source mid after := by
  induction rules generalizing state with
  | nil => exact Or.inl ⟨state, rfl, .refl state⟩
  | cons rule rest ih =>
    have head := listed rule List.mem_cons_self
    have ih := ih fun other mem => listed other (List.mem_cons_of_mem _ mem)
    rw [attemptAll]
    rcases attempt_cases path source state head with
      same | ⟨fresh, same⟩ | ⟨after, same, installs⟩
    · rw [same]
      exact ih state
    · rw [same]
      rcases ih (program.recordAttempt state path rule source) with
        ⟨after, result, rejects⟩ | ⟨mid, after, result, rejects, installs⟩
      · exact Or.inl ⟨after, result, .next head fresh rejects⟩
      · exact Or.inr ⟨mid, after, result, .next head fresh rejects, installs⟩
    · rw [same]
      exact Or.inr ⟨state, after, rfl, .refl state, installs⟩

theorem fApplyAtNode_cases (program : CDSLRewriteProgram Rule Op) (phase : EDslRulePhase)
    (order : EDslRuleOrder) (path : Path) (source : CExpression Op) (state : State Rule Op) :
    (∃ after, program.fApplyAtNode phase order path source state = (after, false) ∧
      program.Rejects phase path source state after) ∨
    ∃ mid after, program.fApplyAtNode phase order path source state = (after, true) ∧
      program.Rejects phase path source state mid ∧
      program.Installs phase path source mid after := by
  unfold fApplyAtNode
  split
  · exact Or.inl ⟨state, rfl, .refl state⟩
  · exact attemptAll_cases (fun rule mem => (List.mem_filter.mp mem).1) state

/-! ### Properties of every state of a run -/

/-- A property kept by recording an attempt and by installing a target. -/
structure Keeps (program : CDSLRewriteProgram Rule Op) (P : State Rule Op → Prop) : Prop where
  attempted : ∀ {phase path source rule state}, P state → rule ∈ program.rboRules phase →
    state.root.resolve path = some source →
    program.fFired state rule (program.hashValue source) source = false →
    P (program.recordAttempt state path rule source)
  installed : ∀ {phase path source state after}, P state →
    state.root.resolve path = some source →
    program.Installs phase path source state after → P after

section Keeping
variable {P : State Rule Op → Prop} (keeps : program.Keeps P)

include keeps

theorem Keeps.rejects (h : program.Rejects phase path source state after)
    (found : state.root.resolve path = some source) (holds : P state) : P after := by
  induction h with
  | refl => exact holds
  | next listed fresh _ ih =>
    apply ih
    · rw [recordAttempt_root]
      exact found
    · exact keeps.attempted holds listed found fresh

theorem Keeps.fApplyAtNode (phase : EDslRulePhase) (order : EDslRuleOrder)
    (found : state.root.resolve path = some source) (holds : P state) :
    P (program.fApplyAtNode phase order path source state).1 := by
  rcases fApplyAtNode_cases program phase order path source state with
    ⟨after, same, rejects⟩ | ⟨mid, after, same, rejects, installs⟩
  · rw [same]
    exact keeps.rejects rejects found holds
  · rw [same]
    apply keeps.installed (keeps.rejects rejects found holds) _ installs
    rw [rejects.root]
    exact found

abbrev RoundKeeps (P : State Rule Op → Prop) (round : Round Rule Op) : Prop :=
  Yields P (Sum.elim (fun driver => P driver.state) (fun result => P result.1)) round

theorem Keeps.topDownRound (phase : EDslRulePhase) (driver : Driver Rule Op)
    (holds : P driver.state) : RoundKeeps P (program.topDownRound phase driver) := by
  unfold CDSLRewriteProgram.topDownRound
  cases driver.worklist with
  | nil => exact holds
  | cons item rest =>
    dsimp only
    split
    · exact holds
    · split
      · exact holds
      next node found =>
        have visited := keeps.fApplyAtNode phase .topDown found holds
        split
        next after same =>
          rw [same] at visited
          exact visited
        next after same =>
          rw [same] at visited
          exact visited

theorem Keeps.bottomUpRound (phase : EDslRulePhase) (driver : Driver Rule Op)
    (holds : P driver.state) : RoundKeeps P (program.bottomUpRound phase driver) := by
  unfold CDSLRewriteProgram.bottomUpRound
  cases driver.worklist with
  | nil => exact holds
  | cons item rest =>
    dsimp only
    split
    · exact holds
    · split
      · exact holds
      next node found =>
        split
        · exact holds
        · have visited := keeps.fApplyAtNode phase .bottomUp found holds
          split
          next after same =>
            rw [same] at visited
            exact visited
          next after same =>
            rw [same] at visited
            exact visited

theorem Keeps.phaseRound (fuel : ℕ) (phase : EDslRulePhase) (state : State Rule Op)
    (holds : P state) : Yields P (Sum.elim P P) (program.phaseRound fuel phase state) := by
  apply Yields.bind fun result => P result.1
  · exact rounds_yields (fun driver : Driver Rule Op => P driver.state) (fun _ h => h)
      (keeps.topDownRound phase) fuel holds
  · intro top holds
    apply Yields.bind fun result => P result.1
    · exact rounds_yields (fun driver : Driver Rule Op => P driver.state) (fun _ h => h)
        (keeps.bottomUpRound phase) fuel holds
    · intro bottom holds
      dsimp only
      split
      · exact holds
      · exact holds

theorem Keeps.runPhase (fuel : ℕ) (phase : EDslRulePhase)
    (state : State Rule Op) (holds : P state) :
    Yields P P (program.runPhase fuel phase state) := by
  unfold CDSLRewriteProgram.runPhase
  split
  · exact holds
  · exact rounds_yields P (fun _ h => h) (keeps.phaseRound fuel phase) fuel holds

theorem Keeps.pexprRewrite (fuel : ℕ) (root : CExpression Op) (holds : P (State.init root)) :
    Yields P P (program.pexprRewrite fuel root) := by
  apply Yields.bind P (keeps.runPhase fuel .normalize _ holds)
  intro normalized holds
  apply Yields.bind P (keeps.runPhase fuel .preJoin _ holds)
  intro prepared holds
  exact keeps.runPhase fuel .cleanup _ holds

end Keeping

end CDSLRewriteProgram

/-! ### The weight of a worklist -/

namespace CExpression
variable {Op : Type}

theorem nodesList_eq_sum (children : List (CExpression Op)) :
    nodesList children = (children.map nodes).sum := by
  induction children with
  | nil => rfl
  | cons child rest ih => simp [nodesList, ih]

theorem nodes_eq (expr : CExpression Op) : expr.nodes = 1 + (expr.children.map nodes).sum := by
  cases expr with
  | node op children => rw [nodes, nodesList_eq_sum, CExpression.children]

theorem resolve_snoc {root node : CExpression Op} {path : Path}
    (found : root.resolve path = some node) (child : ℕ) :
    root.resolve (path ++ [child]) = node.children[child]? := by
  induction path generalizing root with
  | nil =>
    cases found
    cases node with
    | node op children =>
      rw [List.nil_append, resolve]
      cases hChild : children[child]? with
      | none => exact hChild.symm
      | some expr => exact hChild.symm
  | cons index path ih =>
    cases root with
    | node op children =>
      rw [resolve] at found
      rw [List.cons_append, resolve]
      cases hIndex : children[index]? with
      | none =>
        rw [hIndex] at found
        cases found
      | some expr =>
        rw [hIndex] at found
        exact ih found

end CExpression

/-- A path stands for twice the nodes below it: each is met at most once on the way down
    and once on the way up. -/
def pathWeight {Op : Type} (root : CExpression Op) (path : Path) : ℕ :=
  match root.resolve path with
  | none => 1
  | some node => 2 * node.nodes

def SWorkItem.downWeight {Op : Type} (root : CExpression Op) (item : SWorkItem) : ℕ :=
  pathWeight root item.path

def SWorkItem.upWeight {Op : Type} (root : CExpression Op) (item : SWorkItem) : ℕ :=
  if item.childrenVisited then 1 else pathWeight root item.path

theorem pathWeight_pos {Op : Type} (root : CExpression Op) (path : Path) :
    0 < pathWeight root path := by
  unfold pathWeight
  split
  · omega
  next node _ =>
    have := node.nodes_eq
    omega

theorem SWorkItem.upWeight_pos {Op : Type} (root : CExpression Op) (item : SWorkItem) :
    0 < item.upWeight root := by
  unfold SWorkItem.upWeight
  split
  · omega
  · exact pathWeight_pos root item.path

theorem pathWeight_of_resolve {Op : Type} {root node : CExpression Op} {path : Path}
    (found : root.resolve path = some node) : pathWeight root path = 2 * node.nodes := by
  rw [pathWeight, found]

theorem sum_childItems {Op : Type} {root node : CExpression Op} {path : Path}
    (weight : SWorkItem → ℕ) (unvisited : ∀ path, weight ⟨path, false⟩ = pathWeight root path)
    (found : root.resolve path = some node) :
    ((CDSLRewriteProgram.childItems path node.arity).map weight).sum + 2 =
      2 * node.nodes := by
  have weights : (CDSLRewriteProgram.childItems path node.arity).map weight =
      node.children.map fun child => 2 * child.nodes := by
    apply List.ext_getElem
    · simp [CDSLRewriteProgram.childItems, CExpression.arity]
    · intro child _ hRight
      have inside : child < node.children.length := by simpa using hRight
      simp [CDSLRewriteProgram.childItems, unvisited, pathWeight,
        CExpression.resolve_snoc found, inside]
  rw [weights, List.sum_map_mul_left node.children CExpression.nodes 2, node.nodes_eq]
  omega

/-! ### Runs that end -/

namespace CDSLRewriteProgram
variable {Rule Op : Type} {P : State Rule Op → Prop} {left : State Rule Op → ℕ}
  {state after : State Rule Op}

abbrev LexLt : ℕ × ℕ → ℕ × ℕ → Prop := Prod.Lex (· < ·) (· < ·)

theorem lexLt_wf : WellFounded LexLt :=
  (Prod.lex Nat.lt_wfRel Nat.lt_wfRel).wf

theorem lexLt_of_le {a b c d : ℕ} (first : a ≤ b) (second : c < d) : LexLt (a, c) (b, d) := by
  rcases Nat.lt_or_eq_of_le first with lt | rfl
  · exact .left _ _ lt
  · exact .right _ second

/-- What is left, and the weight of the worklist in the current tree. -/
def driverMeasure (left : State Rule Op → ℕ) (weight : CExpression Op → SWorkItem → ℕ)
    (driver : Driver Rule Op) : ℕ × ℕ :=
  (left driver.state, (driver.worklist.map (weight driver.state.root)).sum)

/-- A driver that started with `start` left. -/
structure Driving (P : State Rule Op → Prop) (left : State Rule Op → ℕ) (start : ℕ)
    (state : State Rule Op) (changed : Bool) : Prop where
  holds : P state
  le : left state ≤ start
  lt : changed = true → left state < start

variable {start : ℕ} {changed : Bool}

theorem Driving.rejected (driving : Driving P left start state changed) (holds : P after)
    (le : left after ≤ left state) : Driving P left start after changed where
  holds := holds
  le := le_trans le driving.le
  lt := fun h => lt_of_le_of_lt le (driving.lt h)

theorem Driving.applied (driving : Driving P left start state changed) (holds : P after)
    (lt : left after < left state) : Driving P left start after true where
  holds := holds
  le := le_trans lt.le driving.le
  lt := fun _ => lt_of_lt_of_le lt driving.le

def RoundEnds (P : State Rule Op → Prop) (left : State Rule Op → ℕ)
    (weight : CExpression Op → SWorkItem → ℕ) (start : ℕ) (driver : Driver Rule Op)
    (out : Driver Rule Op ⊕ State Rule Op × Bool) : Prop :=
  Sum.elim
    (fun next => Driving P left start next.state next.changed ∧
      LexLt (driverMeasure left weight next) (driverMeasure left weight driver))
    (fun result => Driving P left start result.1 result.2) out

theorem settles_of_eq {τ α : Type} {run : Except τ α} {a : α} (h : run = .ok a) :
    Settles (fun _ => run) a :=
  ⟨0, fun _ _ => h⟩

theorem exists_settles_driver {round : Driver Rule Op → Round Rule Op}
    {weight : CExpression Op → SWorkItem → ℕ} {worklist : List SWorkItem}
    (step : ∀ driver : Driver Rule Op, Driving P left (left state) driver.state driver.changed → ∃
      out, round driver = .ok out ∧ RoundEnds P left weight (left state) driver out)
    (holds : P state) :
    ∃ result, Settles (fun fuel => rounds Driver.state round fuel ⟨state, worklist, false⟩)
        result ∧ Driving P left (left state) result.1 result.2 := by
  apply exists_settles_rounds
    (fun driver : Driver Rule Op => Driving P left (left state) driver.state driver.changed)
    lexLt_wf (driverMeasure left weight)
  · intro driver driving
    obtain ⟨out, ran, ends⟩ := step driver driving
    exact ⟨out, settles_of_eq ran, ends⟩
  · exact ⟨holds, le_refl _, fun h => by cases h⟩

variable [DecidableEq Rule] {program : CDSLRewriteProgram Rule Op}
  {phase : EDslRulePhase} {path : Path} {source : CExpression Op}

/-- A number that no attempt increases and each installation decreases. -/
structure Declines (program : CDSLRewriteProgram Rule Op) (P : State Rule Op → Prop)
    (left : State Rule Op → ℕ) : Prop where
  attempted : ∀ {phase path source rule state}, P state → rule ∈ program.rboRules phase →
    state.root.resolve path = some source →
    program.fFired state rule (program.hashValue source) source = false →
    left (program.recordAttempt state path rule source) ≤ left state
  installed : ∀ {phase path source state after}, P state →
    state.root.resolve path = some source →
    program.Installs phase path source state after → left after < left state

variable (declines : program.Declines P left) (keeps : program.Keeps P)

include declines keeps

theorem Declines.rejects (h : program.Rejects phase path source state after)
    (found : state.root.resolve path = some source) (holds : P state) :
    left after ≤ left state := by
  induction h with
  | refl => exact le_refl _
  | next listed fresh _ ih =>
    apply le_trans (ih _ (keeps.attempted holds listed found fresh))
    · exact declines.attempted holds listed found fresh
    · rw [recordAttempt_root]
      exact found

theorem Declines.fApplyAtNode (phase : EDslRulePhase) (order : EDslRuleOrder)
    (found : state.root.resolve path = some source) (holds : P state) :
    (∃ after, program.fApplyAtNode phase order path source state = (after, false) ∧
      after.root = state.root ∧ P after ∧ left after ≤ left state) ∨
    ∃ after, program.fApplyAtNode phase order path source state = (after, true) ∧
      P after ∧ left after < left state := by
  rcases fApplyAtNode_cases program phase order path source state with
    ⟨after, same, rejects⟩ | ⟨mid, after, same, rejects, installs⟩
  · exact Or.inl ⟨after, same, rejects.root, keeps.rejects rejects found holds,
      declines.rejects keeps rejects found holds⟩
  · have middle := keeps.rejects rejects found holds
    have found' : mid.root.resolve path = some source := by
      rw [rejects.root]
      exact found
    exact Or.inr ⟨after, same, keeps.installed middle found' installs,
      lt_of_lt_of_le (declines.installed middle found' installs)
        (declines.rejects keeps rejects found holds)⟩

theorem Declines.topDownRound (phase : EDslRulePhase) (driver : Driver Rule Op)
    (driving : Driving P left start driver.state driver.changed) :
    ∃ out, program.topDownRound phase driver = .ok out ∧
      RoundEnds P left SWorkItem.downWeight start driver out := by
  obtain ⟨state, worklist, changed⟩ := driver
  cases worklist with
  | nil => exact ⟨_, rfl, driving⟩
  | cons item rest =>
    unfold CDSLRewriteProgram.topDownRound
    dsimp only
    split
    · exact ⟨_, rfl, driving⟩
    · split
      · refine ⟨_, rfl, driving, lexLt_of_le (le_refl _) ?_⟩
        have := pathWeight_pos state.root item.path
        simp only [List.map_cons, List.sum_cons, SWorkItem.downWeight]
        omega
      next node found =>
        rcases declines.fApplyAtNode keeps phase .topDown found driving.holds with
          ⟨after, same, root, holds, le⟩ | ⟨after, same, holds, lt⟩
        · rw [same]
          refine ⟨_, rfl, driving.rejected holds le, lexLt_of_le le ?_⟩
          have below := sum_childItems (SWorkItem.downWeight state.root) (fun _ => rfl) found
          have above := pathWeight_of_resolve found
          simp only [List.map_cons, List.sum_cons, List.map_append, List.sum_append, root,
            SWorkItem.downWeight] at below ⊢
          omega
        · rw [same]
          exact ⟨_, rfl, driving.applied holds lt, .left _ _ lt⟩

theorem Declines.bottomUpRound (phase : EDslRulePhase) (driver : Driver Rule Op)
    (driving : Driving P left start driver.state driver.changed) :
    ∃ out, program.bottomUpRound phase driver = .ok out ∧
      RoundEnds P left SWorkItem.upWeight start driver out := by
  obtain ⟨state, worklist, changed⟩ := driver
  cases worklist with
  | nil => exact ⟨_, rfl, driving⟩
  | cons item rest =>
    have positive := item.upWeight_pos state.root
    unfold CDSLRewriteProgram.bottomUpRound
    dsimp only
    split
    · exact ⟨_, rfl, driving⟩
    · split
      · refine ⟨_, rfl, driving, lexLt_of_le (le_refl _) ?_⟩
        simp only [List.map_cons, List.sum_cons]
        omega
      next node found =>
        split
        next unvisited =>
          -- the children and the second visit weigh one less than the first visit
          refine ⟨_, rfl, driving, lexLt_of_le (le_refl _) ?_⟩
          have below := sum_childItems (SWorkItem.upWeight state.root) (fun _ => rfl) found
          have above : item.upWeight state.root = 2 * node.nodes := by
            rw [SWorkItem.upWeight, ← pathWeight_of_resolve found]
            simp [Bool.not_eq_true' _ ▸ unvisited]
          simp only [List.map_cons, List.sum_cons, List.map_append, List.sum_append, above]
          have again : SWorkItem.upWeight state.root ⟨item.path, true⟩ = 1 := rfl
          omega
        · rcases declines.fApplyAtNode keeps phase .bottomUp found driving.holds with
            ⟨after, same, root, holds, le⟩ | ⟨after, same, holds, lt⟩
          · rw [same]
            refine ⟨_, rfl, driving.rejected holds le, lexLt_of_le le ?_⟩
            simp only [List.map_cons, List.sum_cons, root]
            omega
          · rw [same]
            exact ⟨_, rfl, driving.applied holds lt, .left _ _ lt⟩

theorem Declines.phaseRound (phase : EDslRulePhase) (holds : P state) :
    ∃ out, Settles (fun fuel => program.phaseRound fuel phase state) out ∧
      Sum.elim (fun next => P next ∧ left next < left state) P out := by
  obtain ⟨⟨top, changedTop⟩, topDown, drivenTop⟩ :=
    exists_settles_driver (declines.topDownRound keeps phase) holds
  obtain ⟨⟨bottom, changedBottom⟩, bottomUp, drivenBottom⟩ :=
    exists_settles_driver (declines.bottomUpRound keeps phase) drivenTop.holds
  refine ⟨if (changedBottom || changedTop) && !bottom.hardBudgetExhausted then .inl bottom
    else .inr bottom, topDown.bind (bottomUp.bind ?_), ?_⟩
  · dsimp only
    split
    · exact settles_ok _
    · exact settles_ok _
  · split
    next goesOn =>
      refine ⟨drivenBottom.holds, ?_⟩
      simp only [Bool.and_eq_true, Bool.or_eq_true] at goesOn
      rcases goesOn.1 with changed | changed
      · exact lt_of_lt_of_le (drivenBottom.lt changed) drivenTop.le
      · exact lt_of_le_of_lt drivenBottom.le (drivenTop.lt changed)
    · exact drivenBottom.holds

theorem Declines.runPhase (phase : EDslRulePhase) (holds : P state) :
    ∃ result, Settles (fun fuel => program.runPhase fuel phase state) result ∧ P result := by
  unfold CDSLRewriteProgram.runPhase
  split
  · exact ⟨state, settles_ok state, holds⟩
  · exact exists_settles_rounds P Nat.lt_wfRel.wf left
      (fun state holds => declines.phaseRound keeps phase holds) holds

theorem Declines.pexprRewrite (root : CExpression Op) (holds : P (State.init root)) :
    ∃ result, Settles (fun fuel => program.pexprRewrite fuel root) result := by
  obtain ⟨normalized, first, holds⟩ := declines.runPhase keeps .normalize holds
  obtain ⟨prepared, second, holds⟩ := declines.runPhase keeps .preJoin holds
  obtain ⟨result, third, _⟩ := declines.runPhase keeps .cleanup holds
  exact ⟨result, first.bind (second.bind third)⟩

end CDSLRewriteProgram

end RewriteProgram
