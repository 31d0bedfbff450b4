import Tuuli.RedundantResults

/-!
Removing redundant `Result` nodes keeps the rows: an expression over the child's columns has the
value of the expression with the child's expressions in their place, evaluated at the tuple where
the child evaluates them.
-/
namespace RedundantResults

section Substitution
variable {V T : Type} (machine : Machine V T)

mutual

/-- The expression with the child's expressions in place of the child's columns. -/
def Expr.subst (childTlist : List (Expr V)) : Expr V → Expr V
  | .var ref varno varattno =>
    if varno = .outer ∧ 0 < varattno then
      (childTlist[varattno.toNat - 1]?).getD (.var ref varno varattno)
    else .var ref varno varattno
  | .func op args => .func op (Expr.substArgs childTlist args)
  | expr => expr

def Expr.substArgs (childTlist : List (Expr V)) : List (Expr V) → List (Expr V)
  | [] => []
  | arg :: rest => Expr.subst childTlist arg :: Expr.substArgs childTlist rest

end

/-- Columns that the child does not have, and aggregates. -/
def stray (columns : ℕ) : Expr V → Bool
  | .var _ varno varattno => varno = .outer && columns < varattno.toNat
  | .aggref _ => true
  | _ => false

variable {machine} {childTlist args : List (Expr V)} {test : Expr V → Bool} {tuple : T}

theorem anyArg_eq_any : Expr.anyArg test args = args.any (Expr.anyNode test) := by
  induction args with
  | nil => rfl
  | cons arg rest ih =>
    unfold Expr.anyArg
    rw [ih, List.any_cons]

theorem anyNode_func {op : FuncOp} (clean : Expr.anyNode test (.func op args) = false) :
    ∀ arg ∈ args, Expr.anyNode test arg = false := by
  unfold Expr.anyNode at clean
  rw [Bool.or_eq_false_iff, anyArg_eq_any] at clean
  intro arg mem
  exact Bool.eq_false_iff.mpr fun found =>
    Bool.eq_false_iff.mp clean.2 (List.any_eq_true.mpr ⟨arg, mem, found⟩)

theorem evalArgs_eq_map :
    Expr.evalArgs machine tuple args = args.map (Expr.eval machine tuple) := by
  induction args with
  | nil => rfl
  | cons arg rest ih =>
    unfold Expr.evalArgs
    rw [ih, List.map_cons]

theorem substArgs_eq_map : Expr.substArgs childTlist args = args.map (Expr.subst childTlist) := by
  induction args with
  | nil => rfl
  | cons arg rest ih =>
    unfold Expr.substArgs
    rw [ih, List.map_cons]

theorem pushDownArgs_fst {heap : Heap}
    (same : ∀ arg ∈ args, ∀ heap, (pushDownExprMutator childTlist arg heap).1 = arg.subst
      childTlist) : (pushDownArgs childTlist args heap).1 = Expr.substArgs childTlist args := by
  induction args generalizing heap with
  | nil => rfl
  | cons arg rest ih =>
    rw [List.forall_mem_cons] at same
    unfold pushDownArgs Expr.substArgs
    rw [← same.1 heap, ← ih same.2]

theorem pushDownExprMutator_fst (expr : Expr V) (heap : Heap) :
    (pushDownExprMutator childTlist expr heap).1 = expr.subst childTlist := by
  induction expr using Expr.induct generalizing heap with
  | var ref varno varattno =>
    unfold pushDownExprMutator Expr.subst
    split
    next =>
      cases childTlist[varattno.toNat - 1]? <;> rfl
    next => rfl
  | func op args ih =>
    unfold pushDownExprMutator Expr.subst
    rw [← pushDownArgs_fst fun arg mem heap => ih arg mem heap]
  | const | param | subPlan | aggref => rfl

theorem pushDownArgs_subst (heap : Heap) :
    (pushDownArgs childTlist args heap).1 = Expr.substArgs childTlist args :=
  pushDownArgs_fst fun arg _ heap => pushDownExprMutator_fst arg heap

theorem eval_subst (expr : Expr V) (safe : tlistUnsafeToPushWalker expr = false)
    (effects : containSubplans expr = false)
    (known : expr.anyNode (stray childTlist.length) = false) :
    Expr.eval machine tuple (expr.subst childTlist) =
      Expr.eval machine (machine.resultTuple (Expr.evalArgs machine tuple childTlist)) expr := by
  induction expr using Expr.induct with
  | var ref varno varattno =>
    simp only [tlistUnsafeToPushWalker, Expr.anyNode, Bool.or_eq_false_iff, decide_eq_false_iff_not,
      not_not, Int.not_le] at safe
    simp only [Expr.anyNode, stray, safe.1, decide_true, Bool.true_and, decide_eq_false_iff_not,
      Nat.not_lt] at known
    have bound : varattno.toNat - 1 < childTlist.length := by omega
    have built : (Expr.var ref varno varattno).subst childTlist =
        childTlist[varattno.toNat - 1] := by
      unfold Expr.subst
      rw [if_pos safe, List.getElem?_eq_getElem bound]
      rfl
    have read : Expr.eval machine (machine.resultTuple (Expr.evalArgs machine tuple childTlist))
        (.var ref varno varattno) = Expr.eval machine tuple childTlist[varattno.toNat - 1] := by
      rw [Expr.eval, if_pos safe, machine.outer_resultTuple, evalArgs_eq_map, List.getElem?_map,
        List.getElem?_eq_getElem bound]
      rfl
    rw [built, read]
  | func op args ih =>
    unfold Expr.subst Expr.eval
    rw [evalArgs_eq_map, evalArgs_eq_map, substArgs_eq_map, List.map_map]
    congr 1
    refine List.map_congr_left fun arg mem => ?_
    exact ih arg mem (anyNode_func safe arg mem) (anyNode_func effects arg mem)
      (anyNode_func known arg mem)
  | const ref value => rfl
  | param id => cases safe
  | subPlan id => cases effects
  | aggref id => cases known

end Substitution

section Walk
variable {V T : Type}

/-- The columns that a `Result` reads are columns of its child. -/
inductive WellReferenced : Plan V → Prop
  | node {info : PlanNode} {targetlist : List (Expr V)} {children : List (Plan V)}
      (below : ∀ child ∈ children, WellReferenced child)
      (known : info.isResult = true → ∀ child ∈ children.head?, ∀ expr ∈ targetlist,
        expr.anyNode (stray child.targetlist.length) = false) :
      WellReferenced (.node info targetlist children)

variable {machine : Machine V T} {info : PlanNode} {targetlist : List (Expr V)}
  {child : Plan V} {children : List (Plan V)} {heap : Heap}

theorem rowsAll_eq_map : Plan.rowsAll machine children = children.map (Plan.rows machine) := by
  induction children with
  | nil => rfl
  | cons child rest ih =>
    unfold Plan.rowsAll
    rw [ih, List.map_cons]

theorem rows_node : Plan.rows machine (.node info targetlist children) =
    emit machine info targetlist (children.map (Plan.rows machine)) := by
  rw [Plan.rows, rowsAll_eq_map]

theorem emit_projecting {inputs : List (List (List V))}
    (projecting : (info.is_projection_capable || info.isResult) = true) :
    emit machine info targetlist inputs = (tuplesOf machine info inputs).map fun tuple =>
      Expr.evalArgs machine tuple targetlist := by
  unfold emit
  rw [if_pos projecting]

theorem walker_node : removeRedundantResultsWalker (.node info targetlist children) heap =
    removeResult info targetlist (recursePlanChildren children heap).1
      (recursePlanChildren children heap).2 := by
  rw [removeRedundantResultsWalker]

theorem safe_of_fRedundant (redundant : fRedundant info targetlist child = true) :
    info.projectsOnly = true ∧ ∀ expr ∈ targetlist,
      tlistUnsafeToPushWalker expr = false ∧ containSubplans expr = false := by
  cases child with
  | node childInfo childTlist grandchildren =>
    unfold fRedundant at redundant
    simp only [Bool.and_eq_true] at redundant
    obtain ⟨⟨⟨projects, -⟩, pushable⟩, -⟩ := redundant
    refine ⟨projects, fun expr mem => ?_⟩
    unfold tlistSafeToPush at pushable
    split at pushable
    next => cases pushable
    next effects =>
      unfold tlistHasEffects at effects
      simp only [Bool.not_eq_true, Bool.or_eq_false_iff, List.any_eq_false] at effects
      simp only [Bool.not_eq_true', List.any_eq_false, Bool.not_eq_true] at pushable
      exact ⟨pushable expr mem, effects.2 expr mem⟩

theorem isResult_of_projectsOnly (projects : info.projectsOnly = true) : info.isResult = true := by
  unfold PlanNode.projectsOnly at projects
  simp only [Bool.and_eq_true] at projects
  exact projects.1.1.1

end Walk

section Survivors
variable {V T : Type}

/-- A removed target list and the child's target list that it was pushed into. -/
structure Absorption (V : Type) where
  declared : List (Expr V)
  child : List (Expr V)

/-- A node of the tree after the clean-up, the plan that it stands for, and the last `Result` that
it absorbed. -/
structure Survivor (V : Type) where
  plan : Plan V
  origin : Plan V
  absorbed : Option (Absorption V)

structure Survivors (V : Type) where
  root : Survivor V
  below : List (Survivor V)

def Survivors.all (survivors : Survivors V) : List (Survivor V) :=
  survivors.root :: survivors.below

def Plan.absorbing (info : PlanNode) (targetlist : List (Expr V)) : Plan V → Plan V
  | .node childInfo childTlist grandchildren =>
    .node { childInfo with estimates := info.estimates } (Expr.substArgs childTlist targetlist)
      grandchildren

/-- The survivors at and under a node, from those of its children. -/
def Survivors.join (info : PlanNode) (targetlist : List (Expr V)) (children : List (Plan V)) :
    List (Survivors V) → Survivors V
  | [] => ⟨⟨.node info targetlist [], .node info targetlist children, none⟩, []⟩
  | first :: rest =>
    if fRedundant info targetlist first.root.plan then
      ⟨⟨first.root.plan.absorbing info targetlist, .node info targetlist children,
        some ⟨targetlist, first.root.plan.targetlist⟩⟩, first.below⟩
    else ⟨⟨.node info targetlist ((first :: rest).map fun below => below.root.plan),
      .node info targetlist children, none⟩, (first :: rest).flatMap Survivors.all⟩

mutual

def Plan.survivors : Plan V → Survivors V
  | .node info targetlist children =>
    Survivors.join info targetlist children (Plan.survivorsAll children)

def Plan.survivorsAll : List (Plan V) → List (Survivors V)
  | [] => []
  | child :: rest => Plan.survivors child :: Plan.survivorsAll rest

end

mutual

/-- The nodes of a plan, with what is under them. -/
def Plan.nodes : Plan V → List (Plan V)
  | .node info targetlist children => .node info targetlist children :: Plan.nodesAll children

def Plan.nodesAll : List (Plan V) → List (Plan V)
  | [] => []
  | child :: rest => Plan.nodes child ++ Plan.nodesAll rest

end

variable {machine : Machine V T} {info : PlanNode} {targetlist : List (Expr V)}
  {child : Plan V} {children : List (Plan V)} {heap : Heap}

theorem survivorsAll_eq_map : Plan.survivorsAll children = children.map Plan.survivors := by
  induction children with
  | nil => rfl
  | cons child rest ih =>
    unfold Plan.survivorsAll
    rw [ih, List.map_cons]

theorem nodesAll_eq_flatMap : Plan.nodesAll children = children.flatMap Plan.nodes := by
  induction children with
  | nil => rfl
  | cons child rest ih =>
    unfold Plan.nodesAll
    rw [ih, List.flatMap_cons]

theorem nodes_node : Plan.nodes (.node info targetlist children) =
    .node info targetlist children :: children.flatMap Plan.nodes := by
  rw [Plan.nodes, nodesAll_eq_flatMap]

theorem survivors_cases (info : PlanNode) (targetlist : List (Expr V)) (children : List (Plan V)) :
    (∃ child rest, children = child :: rest ∧
      fRedundant info targetlist child.survivors.root.plan = true ∧
      Plan.survivors (.node info targetlist children) =
        ⟨⟨child.survivors.root.plan.absorbing info targetlist, .node info targetlist children,
          some ⟨targetlist, child.survivors.root.plan.targetlist⟩⟩, child.survivors.below⟩) ∨
    ((∀ child ∈ children.head?, fRedundant info targetlist child.survivors.root.plan = false) ∧
      Plan.survivors (.node info targetlist children) =
        ⟨⟨.node info targetlist (children.map fun child => child.survivors.root.plan),
          .node info targetlist children, none⟩,
          children.flatMap fun child => child.survivors.all⟩) := by
  rw [Plan.survivors, survivorsAll_eq_map]
  cases children with
  | nil =>
    right
    refine ⟨fun child mem => ?_, rfl⟩
    cases mem
  | cons child rest =>
    by_cases redundant : fRedundant info targetlist child.survivors.root.plan = true
    case pos => exact Or.inl ⟨child, rest, rfl, redundant, if_pos redundant⟩
    case neg =>
      right
      constructor
      · intro other mem
        cases mem
        exact Bool.eq_false_iff.mpr redundant
      · have joined : Survivors.join info targetlist (child :: rest)
            ((child :: rest).map Plan.survivors) = _ := if_neg redundant
        rw [joined, ← List.map_cons, List.map_map, List.flatMap_map]
        rfl

theorem absorb_fst : (absorb info targetlist heap child).1 = child.absorbing info targetlist := by
  cases child with
  | node childInfo childTlist grandchildren =>
    rw [Plan.absorbing, ← pushDownArgs_subst heap]
    rfl

theorem recursePlanChildren_fst
    (same : ∀ child ∈ children, ∀ heap, (removeRedundantResultsWalker child heap).1 =
      child.survivors.root.plan) (heap : Heap) :
    (recursePlanChildren children heap).1 =
      children.map fun child => child.survivors.root.plan := by
  induction children generalizing heap with
  | nil => rw [recursePlanChildren, List.map_nil]
  | cons child rest ih =>
    rw [List.forall_mem_cons] at same
    rw [recursePlanChildren, List.map_cons, ← same.1 heap, ← ih same.2]

theorem removeResult_absorb
    (redundant : fRedundant info targetlist child.survivors.root.plan = true) :
    removeResult info targetlist ((child :: children).map fun child => child.survivors.root.plan)
      heap = absorb info targetlist heap child.survivors.root.plan :=
  if_pos redundant

theorem removeResult_keep
    (stays : ∀ child ∈ children.head?,
      fRedundant info targetlist child.survivors.root.plan = false) :
    removeResult info targetlist (children.map fun child => child.survivors.root.plan) heap =
      (.node info targetlist (children.map fun child => child.survivors.root.plan), heap) := by
  cases children with
  | nil => rfl
  | cons child rest =>
    have kept := stays child rfl
    refine if_neg ?_
    rw [kept]
    exact Bool.false_ne_true

theorem walker_fst (plan : Plan V) (heap : Heap) :
    (removeRedundantResultsWalker plan heap).1 = plan.survivors.root.plan := by
  induction plan using Plan.induct generalizing heap with
  | node info targetlist children ih =>
    rw [walker_node, recursePlanChildren_fst ih]
    cases survivors_cases info targetlist children with
    | inl absorbed =>
      obtain ⟨child, rest, shape, redundant, survivors⟩ := absorbed
      rw [survivors, shape, removeResult_absorb redundant, absorb_fst]
    | inr kept => rw [kept.2, removeResult_keep kept.1]

theorem nodes_survivors (plan : Plan V) :
    plan.survivors.root.plan.nodes = plan.survivors.all.map Survivor.plan := by
  induction plan using Plan.induct with
  | node info targetlist children ih =>
    cases survivors_cases info targetlist children with
    | inl absorbed =>
      obtain ⟨child, rest, shape, -, survivors⟩ := absorbed
      have known := ih child (by rw [shape]; exact List.mem_cons_self)
      rw [survivors]
      cases node : child.survivors.root.plan with
      | node childInfo childTlist grandchildren =>
        rw [Survivors.all, List.map_cons, node, nodes_node] at known
        rw [Survivors.all, Plan.absorbing, nodes_node, List.map_cons, (List.cons.inj known).2]
    | inr kept =>
      rw [kept.2, Survivors.all, nodes_node, List.map_cons, List.map_flatMap, List.flatMap_map]
      congr 1
      exact List.flatMap_congr fun child mem => ih child mem

/-- What the clean-up guarantees at a surviving node. -/
structure Survivor.Sound (survivor : Survivor V) : Prop where
  plan_eq : survivor.plan = survivor.origin.survivors.root.plan
  referenced : WellReferenced survivor.origin
  pushed : ∀ absorbed ∈ survivor.absorbed,
    survivor.plan.targetlist = Expr.substArgs absorbed.child absorbed.declared
  safe : ∀ absorbed ∈ survivor.absorbed, ∀ expr ∈ absorbed.declared,
    tlistUnsafeToPushWalker expr = false ∧
      expr.anyNode (stray absorbed.child.length) = false

variable {plan : Plan V} {survivor : Survivor V}

theorem root_origin (plan : Plan V) : plan.survivors.root.origin = plan := by
  cases plan with
  | node info targetlist children =>
    cases survivors_cases info targetlist children with
    | inl absorbed =>
      obtain ⟨_, _, _, _, survivors⟩ := absorbed
      rw [survivors]
    | inr kept => rw [kept.2]

theorem root_absorbed {absorbed : Absorption V}
    (mem : absorbed ∈ (Plan.survivors (.node info targetlist children)).root.absorbed) :
    ∃ child ∈ children.head?,
      fRedundant info targetlist child.survivors.root.plan = true ∧
      absorbed = ⟨targetlist, child.survivors.root.plan.targetlist⟩ ∧
      (Plan.survivors (.node info targetlist children)).root.plan =
        child.survivors.root.plan.absorbing info targetlist := by
  cases survivors_cases info targetlist children with
  | inr kept =>
    rw [kept.2] at mem
    cases mem
  | inl step =>
    obtain ⟨child, rest, shape, redundant, survivors⟩ := step
    rw [survivors] at mem ⊢
    cases mem
    refine ⟨child, ?_, redundant, rfl, rfl⟩
    rw [shape]
    rfl

theorem absorbing_targetlist : (child.absorbing info targetlist).targetlist =
    Expr.substArgs child.targetlist targetlist := by
  cases child with
  | node childInfo childTlist grandchildren => rfl

theorem survivors_length (plan : Plan V) :
    plan.survivors.root.plan.targetlist.length = plan.targetlist.length := by
  cases plan with
  | node info targetlist children =>
    cases survivors_cases info targetlist children with
    | inl absorbed =>
      obtain ⟨child, rest, -, -, survivors⟩ := absorbed
      rw [survivors, absorbing_targetlist, substArgs_eq_map, List.length_map]
      rfl
    | inr kept =>
      rw [kept.2]
      rfl

theorem rows_absorbing (redundant : fRedundant info targetlist child = true)
    (known : ∀ expr ∈ targetlist, expr.anyNode (stray child.targetlist.length) = false)
    (rest : List (Plan V)) :
    (child.absorbing info targetlist).rows machine =
      Plan.rows machine (.node info targetlist (child :: rest)) := by
  obtain ⟨projects, safe⟩ := safe_of_fRedundant redundant
  cases child with
  | node childInfo childTlist grandchildren =>
    have capable : childInfo.is_projection_capable = true := by
      unfold fRedundant canReplaceTlist at redundant
      simp only [Bool.and_eq_true] at redundant
      exact redundant.2.2
    have capableChild : (childInfo.is_projection_capable || childInfo.isResult) = true := by
      rw [capable, Bool.true_or]
    have projecting : (info.is_projection_capable || info.isResult) = true := by
      rw [isResult_of_projectsOnly projects, Bool.or_true]
    have tuples : ∀ first others, tuplesOf machine info (first :: others) =
        first.map machine.resultTuple := fun _ _ => if_pos projects
    rw [rows_node, List.map_cons, emit_projecting projecting, tuples, rows_node,
      emit_projecting capableChild, List.map_map, List.map_map]
    refine rows_node.trans ((emit_projecting capableChild).trans ?_)
    refine List.map_congr_left fun tuple _ => ?_
    simp only [Function.comp_apply]
    rw [evalArgs_eq_map, substArgs_eq_map, List.map_map, evalArgs_eq_map]
    refine List.map_congr_left fun expr mem => ?_
    exact eval_subst expr (safe expr mem).1 (safe expr mem).2 (known expr mem)

theorem rows_survivors (referenced : WellReferenced plan) :
    plan.survivors.root.plan.rows machine = plan.rows machine := by
  induction referenced with
  | @node info targetlist children below known ih =>
    cases survivors_cases info targetlist children with
    | inl absorbed =>
      obtain ⟨child, rest, rfl, redundant, survivors⟩ := absorbed
      have isResult := isResult_of_projectsOnly (safe_of_fRedundant redundant).1
      rw [survivors, rows_absorbing redundant _ rest, rows_node, rows_node, List.map_cons,
        List.map_cons, ih child List.mem_cons_self]
      rw [survivors_length]
      exact known isResult child rfl
    | inr kept =>
      rw [kept.2, rows_node, rows_node, List.map_map]
      congr 1
      exact List.map_congr_left ih

theorem root_sound (referenced : WellReferenced plan) :
    plan.survivors.root.Sound where
  plan_eq := by rw [root_origin]
  referenced := by
    rw [root_origin]
    exact referenced
  pushed := by
    intro absorbed mem
    cases plan with
    | node info targetlist children =>
      obtain ⟨child, -, -, same, pushed⟩ := root_absorbed mem
      rw [pushed, same, absorbing_targetlist]
  safe := by
    intro absorbed mem expr declared
    cases referenced with
    | @node info targetlist children below columns =>
      obtain ⟨child, isHead, redundant, same, -⟩ := root_absorbed mem
      subst same
      have safe := safe_of_fRedundant redundant
      have known := columns (isResult_of_projectsOnly safe.1) child isHead expr declared
      refine ⟨(safe.2 expr declared).1, ?_⟩
      rw [survivors_length]
      exact known

theorem mem_below (mem : survivor ∈ (Plan.survivors (.node info targetlist children)).below) :
    ∃ child ∈ children, survivor ∈ child.survivors.all := by
  cases survivors_cases info targetlist children with
  | inl step =>
    obtain ⟨child, rest, shape, -, survivors⟩ := step
    rw [survivors] at mem
    refine ⟨child, ?_, List.mem_cons_of_mem _ mem⟩
    rw [shape]
    exact List.mem_cons_self
  | inr kept =>
    rw [kept.2] at mem
    exact List.mem_flatMap.mp mem

theorem survivors_sound (referenced : WellReferenced plan) :
    ∀ survivor ∈ plan.survivors.all, survivor.Sound := by
  induction referenced with
  | @node info targetlist children below known ih =>
    intro survivor mem
    cases List.mem_cons.mp mem with
    | inl isRoot =>
      rw [isRoot]
      exact root_sound (.node below known)
    | inr under =>
      obtain ⟨child, inChildren, inAll⟩ := mem_below under
      exact ih child inChildren survivor inAll

theorem Survivor.Sound.rows_eq (sound : survivor.Sound) :
    survivor.plan.rows machine = survivor.origin.rows machine := by
  rw [sound.plan_eq]
  exact rows_survivors sound.referenced

end Survivors
end RedundantResults
