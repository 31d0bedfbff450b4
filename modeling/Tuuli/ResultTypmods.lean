import Mathlib.Data.List.Induction
import Mathlib.Data.List.Nodup
import Tuuli.ResultRows

/-!
The type modifiers after the removal of redundant `Result` nodes. The variables of a removed
target list are written to the child's nodes one after the other, so the last variable that leads
to a node decides its type modifier.
-/
namespace RedundantResults

section Writes
variable {V : Type}

mutual

def Expr.refs : Expr V → List ℕ
  | .var ref _ _ => [ref]
  | .const ref _ => [ref]
  | .func _ args => Expr.refsArgs args
  | _ => []

def Expr.refsArgs : List (Expr V) → List ℕ
  | [] => []
  | arg :: rest => Expr.refs arg ++ Expr.refsArgs rest

end

mutual

/-- The columns of the child that an expression reads, each with the node that reads it, in the
order of the traversal. -/
def Expr.vars : Expr V → List (ℕ × ℤ)
  | .var ref varno varattno => if varno = .outer ∧ 0 < varattno then [(ref, varattno)] else []
  | .func _ args => Expr.varsArgs args
  | _ => []

def Expr.varsArgs : List (Expr V) → List (ℕ × ℤ)
  | [] => []
  | arg :: rest => Expr.vars arg ++ Expr.varsArgs rest

end

/-- The `Var` or `Const` that a column of the child is. -/
def target (childTlist : List (Expr V)) (varattno : ℤ) : Option ℕ :=
  (childTlist[varattno.toNat - 1]?).bind Expr.ref?

def write (childTlist : List (Expr V)) (heap : Heap) (var : ℕ × ℤ) : Heap :=
  match target childTlist var.2 with
  | some ref => Function.update heap ref (heap var.1)
  | none => heap

def lastTypmod (childTlist : List (Expr V)) (heap : Heap) (ref : ℕ) (vars : List (ℕ × ℤ)) :
    Option ℤ :=
  ((vars.filter fun var => target childTlist var.2 = some ref).getLast?).map fun var => heap var.1

variable {childTlist args : List (Expr V)} {heap heap' : Heap} {vars : List (ℕ × ℤ)} {ref : ℕ}
  {var : ℕ × ℤ}

theorem refsArgs_eq_flatMap : Expr.refsArgs args = args.flatMap Expr.refs := by
  induction args with
  | nil => rfl
  | cons arg rest ih =>
    unfold Expr.refsArgs
    rw [ih, List.flatMap_cons]

theorem varsArgs_eq_flatMap : Expr.varsArgs args = args.flatMap Expr.vars := by
  induction args with
  | nil => rfl
  | cons arg rest ih =>
    unfold Expr.varsArgs
    rw [ih, List.flatMap_cons]

theorem pushDownArgs_snd
    (same : ∀ arg ∈ args, ∀ heap, (pushDownExprMutator childTlist arg heap).2 = arg.vars.foldl
      (write childTlist) heap) :
    (pushDownArgs childTlist args heap).2 =
      (Expr.varsArgs args).foldl (write childTlist) heap := by
  induction args generalizing heap with
  | nil => rfl
  | cons arg rest ih =>
    rw [List.forall_mem_cons] at same
    unfold pushDownArgs Expr.varsArgs
    rw [List.foldl_append, ← same.1 heap, ← ih same.2]

theorem pushDownExprMutator_snd (expr : Expr V) (heap : Heap) :
    (pushDownExprMutator childTlist expr heap).2 =
      expr.vars.foldl (write childTlist) heap := by
  induction expr using Expr.induct generalizing heap with
  | var ref varno varattno =>
    unfold pushDownExprMutator Expr.vars
    split
    next =>
      rw [List.foldl_cons, List.foldl_nil]
      unfold write target
      cases childTlist[varattno.toNat - 1]? <;> rfl
    next => rfl
  | func op args ih => exact pushDownArgs_snd fun arg mem heap => ih arg mem heap
  | const | param | subPlan | aggref => rfl

theorem pushDownArgs_heap (heap : Heap) : (pushDownArgs childTlist args heap).2 =
    (Expr.varsArgs args).foldl (write childTlist) heap :=
  pushDownArgs_snd fun arg _ heap => pushDownExprMutator_snd arg heap

theorem lastTypmod_congr (same : ∀ var ∈ vars, heap var.1 = heap' var.1) :
    lastTypmod childTlist heap ref vars = lastTypmod childTlist heap' ref vars := by
  unfold lastTypmod
  refine Option.map_congr fun var mem => ?_
  exact same var (List.mem_filter.mp (List.mem_of_getLast? mem)).1

theorem lastTypmod_isSome {var : ℕ × ℤ} (mem : var ∈ vars)
    (leads : target childTlist var.2 = some ref) :
    (lastTypmod childTlist heap ref vars).isSome := by
  unfold lastTypmod
  rw [Option.isSome_map, List.getLast?_isSome]
  have kept : var ∈ vars.filter fun var => target childTlist var.2 = some ref :=
    List.mem_filter.mpr ⟨mem, decide_eq_true leads⟩
  exact List.ne_nil_of_mem kept

theorem lastTypmod_none (untouched : ∀ var ∈ vars, target childTlist var.2 ≠ some ref) :
    lastTypmod childTlist heap ref vars = none := by
  unfold lastTypmod
  rw [List.filter_eq_nil_iff.mpr fun var mem => by
    rw [decide_eq_true_eq]
    exact untouched var mem]
  rfl

theorem lastTypmod_concat (var : ℕ × ℤ) : lastTypmod childTlist heap ref (vars ++ [var]) =
    if target childTlist var.2 = some ref then some (heap var.1)
    else lastTypmod childTlist heap ref vars := by
  unfold lastTypmod
  rw [List.filter_append]
  split
  next leads =>
    have kept : [var].filter (fun var => target childTlist var.2 = some ref) = [var] :=
      List.filter_cons_of_pos (decide_eq_true leads)
    rw [kept, List.getLast?_concat]
    rfl
  next other =>
    rw [List.filter_cons_of_neg (by rw [decide_eq_true_eq]; exact other), List.filter_nil,
      List.append_nil]

theorem write_apply (var : ℕ × ℤ) : write childTlist heap var ref =
    if target childTlist var.2 = some ref then heap var.1 else heap ref := by
  unfold write
  cases target childTlist var.2 with
  | none => rw [if_neg (Option.some_ne_none ref).symm]
  | some node =>
    change Function.update heap node (heap var.1) ref = _
    rw [Function.update_apply]
    by_cases same : ref = node
    case pos => rw [if_pos same, if_pos (congrArg some same.symm)]
    case neg => rw [if_neg same, if_neg fun found => same (Option.some.inj found).symm]

theorem foldl_write (apart : ∀ reader ∈ vars, ∀ var ∈ vars, target childTlist var.2 ≠ some reader.1)
    (ref : ℕ) :
    vars.foldl (write childTlist) heap ref =
      (lastTypmod childTlist heap ref vars).getD (heap ref) := by
  induction vars using List.reverseRecOn generalizing ref with
  | nil => rfl
  | append_singleton front var ih =>
    have front_apart : ∀ reader ∈ front, ∀ other ∈ front,
        target childTlist other.2 ≠ some reader.1 := fun reader mem other mem' =>
      apart reader (List.mem_append_left _ mem) other (List.mem_append_left _ mem')
    have declared : front.foldl (write childTlist) heap var.1 = heap var.1 := by
      rw [ih front_apart, lastTypmod_none fun other mem =>
        apart var (List.mem_append_right _ List.mem_cons_self) other (List.mem_append_left _ mem)]
      rfl
    rw [List.foldl_concat, lastTypmod_concat, write_apply, declared, ih front_apart]
    split <;> rfl

theorem mem_refs_of_mem_vars (expr : Expr V) (mem : var ∈ expr.vars) : var.1 ∈ expr.refs := by
  induction expr using Expr.induct with
  | var ref varno varattno =>
    unfold Expr.vars at mem
    split at mem
    next =>
      rw [List.mem_singleton.mp mem]
      exact List.mem_singleton_self ref
    next => cases mem
  | func op args ih =>
    unfold Expr.vars at mem
    unfold Expr.refs
    rw [varsArgs_eq_flatMap] at mem
    rw [refsArgs_eq_flatMap]
    obtain ⟨arg, inArgs, inVars⟩ := List.mem_flatMap.mp mem
    exact List.mem_flatMap.mpr ⟨arg, inArgs, ih arg inArgs inVars⟩
  | const | param | subPlan | aggref => cases mem

theorem mem_refsArgs_of_mem_varsArgs (mem : var ∈ Expr.varsArgs args) :
    var.1 ∈ Expr.refsArgs args := by
  rw [varsArgs_eq_flatMap] at mem
  rw [refsArgs_eq_flatMap]
  obtain ⟨arg, inArgs, inVars⟩ := List.mem_flatMap.mp mem
  exact List.mem_flatMap.mpr ⟨arg, inArgs, mem_refs_of_mem_vars arg inVars⟩

theorem mem_refs_of_ref? {expr : Expr V} (found : expr.ref? = some ref) : ref ∈ expr.refs := by
  cases expr with
  | var | const =>
    cases found
    exact List.mem_singleton_self ref
  | func | param | subPlan | aggref => cases found

theorem mem_refsArgs_of_target {varattno : ℤ} (leads : target childTlist varattno = some ref) :
    ref ∈ Expr.refsArgs childTlist := by
  obtain ⟨expr, column, found⟩ := Option.bind_eq_some_iff.mp leads
  rw [refsArgs_eq_flatMap]
  exact List.mem_flatMap.mpr ⟨expr, List.mem_of_getElem? column, mem_refs_of_ref? found⟩

theorem refs_subst (expr : Expr V) (mem : ref ∈ (expr.subst childTlist).refs) :
    ref ∈ expr.refs ∨ ref ∈ Expr.refsArgs childTlist := by
  induction expr using Expr.induct with
  | var node varno varattno =>
    unfold Expr.subst at mem
    split at mem
    next =>
      cases column : childTlist[varattno.toNat - 1]? with
      | none =>
        rw [column] at mem
        exact Or.inl mem
      | some expr =>
        rw [column] at mem
        right
        rw [refsArgs_eq_flatMap]
        exact List.mem_flatMap.mpr ⟨expr, List.mem_of_getElem? column, mem⟩
    next => exact Or.inl mem
  | func op args ih =>
    unfold Expr.subst Expr.refs at mem
    unfold Expr.refs
    rw [refsArgs_eq_flatMap, substArgs_eq_map, List.flatMap_map] at mem
    obtain ⟨arg, inArgs, inRefs⟩ := List.mem_flatMap.mp mem
    cases ih arg inArgs inRefs with
    | inl own =>
      left
      rw [refsArgs_eq_flatMap]
      exact List.mem_flatMap.mpr ⟨arg, inArgs, own⟩
    | inr childs => exact Or.inr childs
  | const | param | subPlan | aggref => exact Or.inl mem

theorem refsArgs_substArgs (mem : ref ∈ Expr.refsArgs (Expr.substArgs childTlist args)) :
    ref ∈ Expr.refsArgs args ∨ ref ∈ Expr.refsArgs childTlist := by
  rw [refsArgs_eq_flatMap, substArgs_eq_map, List.flatMap_map] at mem
  obtain ⟨arg, inArgs, inRefs⟩ := List.mem_flatMap.mp mem
  cases refs_subst arg inRefs with
  | inl own =>
    left
    rw [refsArgs_eq_flatMap]
    exact List.mem_flatMap.mpr ⟨arg, inArgs, own⟩
  | inr childs => exact Or.inr childs

theorem foldl_write_frame (outside : ref ∉ Expr.refsArgs childTlist) :
    vars.foldl (write childTlist) heap ref = heap ref := by
  induction vars generalizing heap with
  | nil => rfl
  | cons var rest ih =>
    rw [List.foldl_cons, ih, write_apply,
      if_neg fun leads => outside (mem_refsArgs_of_target leads)]

end Writes

section Frames
variable {V : Type}

mutual

/-- The nodes with a type modifier that the target lists of a plan use. -/
def Plan.refs : Plan V → List ℕ
  | .node _ targetlist children => Expr.refsArgs targetlist ++ Plan.refsAll children

def Plan.refsAll : List (Plan V) → List ℕ
  | [] => []
  | child :: rest => Plan.refs child ++ Plan.refsAll rest

end

def Survivor.refs (survivor : Survivor V) : List ℕ :=
  Expr.refsArgs survivor.plan.targetlist

/-- A survivor and the `Result` that it absorbed use only given nodes. -/
structure Survivor.Within (refs : List ℕ) (survivor : Survivor V) : Prop where
  own : ∀ ref ∈ survivor.refs, ref ∈ refs
  declared : ∀ absorbed ∈ survivor.absorbed, ∀ ref ∈ Expr.refsArgs absorbed.declared, ref ∈ refs

variable {info : PlanNode} {targetlist : List (Expr V)} {child : Plan V} {children : List (Plan V)}
  {heap before after : Heap} {survivor : Survivor V} {ref : ℕ}

theorem Survivor.Within.mono {refs refs' : List ℕ} (within : survivor.Within refs)
    (sub : ∀ ref ∈ refs, ref ∈ refs') : survivor.Within refs' :=
  ⟨fun ref mem => sub ref (within.own ref mem),
    fun absorbed mem ref inDeclared => sub ref (within.declared absorbed mem ref inDeclared)⟩

theorem refsAll_eq_flatMap : Plan.refsAll children = children.flatMap Plan.refs := by
  induction children with
  | nil => rfl
  | cons child rest ih =>
    unfold Plan.refsAll
    rw [ih, List.flatMap_cons]

theorem refs_node : Plan.refs (.node info targetlist children) =
    Expr.refsArgs targetlist ++ children.flatMap Plan.refs := by
  rw [Plan.refs, refsAll_eq_flatMap]

theorem mem_refs_of_child (inChildren : child ∈ children) (mem : ref ∈ child.refs) :
    ref ∈ Plan.refs (.node info targetlist children) := by
  rw [refs_node]
  exact List.mem_append_right _ (List.mem_flatMap.mpr ⟨child, inChildren, mem⟩)

theorem root_within (below : ∀ child ∈ children, child.survivors.root.Within child.refs) :
    (Plan.survivors (.node info targetlist children)).root.Within
      (Plan.refs (.node info targetlist children)) := by
  have own : ∀ ref ∈ Expr.refsArgs targetlist,
      ref ∈ Plan.refs (.node info targetlist children) := by
    intro ref mem
    rw [refs_node]
    exact List.mem_append_left _ mem
  cases survivors_cases info targetlist children with
  | inl step =>
    obtain ⟨child, rest, shape, -, survivors⟩ := step
    have inChildren : child ∈ children := by
      rw [shape]
      exact List.mem_cons_self
    rw [survivors]
    constructor
    · intro ref mem
      unfold Survivor.refs at mem
      rw [absorbing_targetlist] at mem
      cases refsArgs_substArgs mem with
      | inl declared => exact own ref declared
      | inr childs => exact mem_refs_of_child inChildren ((below child inChildren).own ref childs)
    · intro absorbed mem
      cases mem
      exact own
  | inr kept =>
    rw [kept.2]
    constructor
    · exact own
    · intro absorbed mem
      cases mem

theorem survivors_within (plan : Plan V) :
    ∀ survivor ∈ plan.survivors.all, survivor.Within plan.refs := by
  induction plan using Plan.induct with
  | node info targetlist children ih =>
    intro survivor mem
    cases List.mem_cons.mp mem with
    | inl isRoot =>
      rw [isRoot]
      exact root_within fun child inChildren => ih child inChildren _ List.mem_cons_self
    | inr under =>
      obtain ⟨child, inChildren, inAll⟩ := mem_below under
      exact (ih child inChildren survivor inAll).mono fun ref inRefs =>
        mem_refs_of_child inChildren inRefs

theorem walker_snd_absorb
    (redundant : fRedundant info targetlist child.survivors.root.plan = true) :
    (removeRedundantResultsWalker (.node info targetlist (child :: children)) heap).2 =
      (Expr.varsArgs targetlist).foldl (write child.survivors.root.plan.targetlist)
        (recursePlanChildren (child :: children) heap).2 := by
  rw [walker_node, recursePlanChildren_fst fun child _ heap => walker_fst child heap,
    removeResult_absorb redundant]
  cases child.survivors.root.plan with
  | node childInfo childTlist grandchildren => exact pushDownArgs_heap _

theorem walker_snd_keep
    (stays : ∀ child ∈ children.head?,
      fRedundant info targetlist child.survivors.root.plan = false) :
    (removeRedundantResultsWalker (.node info targetlist children) heap).2 =
      (recursePlanChildren children heap).2 := by
  rw [walker_node, recursePlanChildren_fst fun child _ heap => walker_fst child heap,
    removeResult_keep stays]

theorem recursePlanChildren_cons :
    (recursePlanChildren (child :: children) heap).2 =
      (recursePlanChildren children (removeRedundantResultsWalker child heap).2).2 := by
  rw [recursePlanChildren]

theorem recursePlanChildren_frame
    (below : ∀ child ∈ children, ∀ heap, ref ∉ child.refs → (removeRedundantResultsWalker child
      heap).2 ref = heap ref) (outside : ∀ child ∈ children, ref ∉ child.refs) :
    (recursePlanChildren children heap).2 ref = heap ref := by
  induction children generalizing heap with
  | nil => rw [recursePlanChildren]
  | cons child rest ih =>
    rw [List.forall_mem_cons] at below outside
    rw [recursePlanChildren_cons, ih below.2 outside.2, below.1 heap outside.1]

theorem walker_frame (plan : Plan V) (heap : Heap) (outside : ref ∉ plan.refs) :
    (removeRedundantResultsWalker plan heap).2 ref = heap ref := by
  induction plan using Plan.induct generalizing heap with
  | node info targetlist children ih =>
    have apart : ∀ child ∈ children, ref ∉ child.refs := fun child inChildren mem =>
      outside (mem_refs_of_child inChildren mem)
    have children_frame : (recursePlanChildren children heap).2 ref = heap ref :=
      recursePlanChildren_frame (fun child inChildren heap notIn => ih child inChildren heap notIn)
        apart
    cases survivors_cases info targetlist children with
    | inr kept =>
      rw [walker_snd_keep kept.1]
      exact children_frame
    | inl step =>
      obtain ⟨child, rest, shape, redundant, -⟩ := step
      subst shape
      rw [walker_snd_absorb redundant, foldl_write_frame fun mem =>
        apart child List.mem_cons_self ((survivors_within child _ List.mem_cons_self).own ref mem)]
      exact children_frame

end Frames

section Typmods
variable {V T : Type}

/-- The nodes that a survivor got from its child have the type modifiers written last. -/
def Survivor.Settled (before after : Heap) (survivor : Survivor V) : Prop :=
  ∀ absorbed ∈ survivor.absorbed, ∀ ref ∈ survivor.refs, ∀ typmod,
    lastTypmod absorbed.child before ref (Expr.varsArgs absorbed.declared) = some typmod →
      after ref = typmod

variable {info : PlanNode} {targetlist : List (Expr V)} {child : Plan V}
  {children : List (Plan V)} {heap before before' after after' : Heap} {survivor : Survivor V}

theorem Survivor.Settled.congr {refs : List ℕ} (settled : survivor.Settled before after)
    (within : survivor.Within refs) (sameBefore : ∀ ref ∈ refs, before' ref = before ref)
    (sameAfter : ∀ ref ∈ survivor.refs, after' ref = after ref) :
    survivor.Settled before' after' := by
  intro absorbed mem ref inRefs typmod last
  rw [sameAfter ref inRefs]
  apply settled absorbed mem ref inRefs typmod
  rw [← last]
  apply lastTypmod_congr
  intro var inVars
  exact (sameBefore var.1 (within.declared absorbed mem var.1
    (mem_refsArgs_of_mem_varsArgs inVars))).symm

theorem unshared_node (unshared : (Plan.refs (.node info targetlist children)).Nodup) :
    (∀ ref ∈ Expr.refsArgs targetlist, ∀ child ∈ children, ref ∉ child.refs) ∧
      (children.flatMap Plan.refs).Nodup := by
  rw [refs_node, List.nodup_append'] at unshared
  refine ⟨fun ref declared child inChildren mem => ?_, unshared.2.1⟩
  exact unshared.2.2 declared (List.mem_flatMap.mpr ⟨child, inChildren, mem⟩)

theorem unshared_child (unshared : (children.flatMap Plan.refs).Nodup) (mem : child ∈ children) :
    child.refs.Nodup :=
  (List.nodup_flatMap.mp unshared).1 child mem

theorem root_apart (plan : Plan V) (unshared : plan.refs.Nodup) :
    ∀ survivor ∈ plan.survivors.below, ∀ ref ∈ plan.survivors.root.refs, ref ∉ survivor.refs := by
  induction plan using Plan.induct with
  | node info targetlist children ih =>
    obtain ⟨declared_apart, unshared_children⟩ := unshared_node unshared
    intro survivor mem ref
    obtain ⟨origin, inChildren, inAll⟩ := mem_below mem
    have own_apart : ref ∈ Expr.refsArgs targetlist → ref ∉ survivor.refs :=
      fun declared inRefs => declared_apart ref declared origin inChildren
        ((survivors_within origin survivor inAll).own ref inRefs)
    cases survivors_cases info targetlist children with
    | inr kept =>
      rw [kept.2]
      exact own_apart
    | inl step =>
      obtain ⟨child, rest, shape, -, survivors⟩ := step
      have isChild : child ∈ children := by
        rw [shape]
        exact List.mem_cons_self
      rw [survivors] at mem ⊢
      intro inRoot
      unfold Survivor.refs at inRoot
      rw [absorbing_targetlist] at inRoot
      cases refsArgs_substArgs inRoot with
      | inl declared => exact own_apart declared
      | inr childs =>
        exact ih child isChild (unshared_child unshared_children isChild) survivor mem ref childs

theorem recursePlanChildren_settled (unshared : (children.flatMap Plan.refs).Nodup)
    (below : ∀ child ∈ children, ∀ heap, ∀ survivor ∈ child.survivors.all, survivor.Settled heap
      (removeRedundantResultsWalker child heap).2) :
    ∀ child ∈ children, ∀ survivor ∈ child.survivors.all,
      survivor.Settled heap (recursePlanChildren children heap).2 := by
  induction children generalizing heap with
  | nil =>
    intro child mem
    cases mem
  | cons first rest ih =>
    rw [List.forall_mem_cons] at below
    rw [List.flatMap_cons, List.nodup_append'] at unshared
    obtain ⟨-, unshared_rest, apart⟩ := unshared
    rw [recursePlanChildren_cons]
    intro child mem survivor inAll
    cases List.mem_cons.mp mem with
    | inl isFirst =>
      subst isFirst
      have within := survivors_within child survivor inAll
      refine (below.1 heap survivor inAll).congr within (fun _ _ => rfl) fun ref inRefs => ?_
      apply recursePlanChildren_frame fun other _ heap outside => walker_frame other heap outside
      intro other isOther inOther
      exact apart (within.own ref inRefs) (List.mem_flatMap.mpr ⟨other, isOther, inOther⟩)
    | inr later =>
      have settled := @ih (removeRedundantResultsWalker first heap).2 unshared_rest below.2 child
        later survivor inAll
      refine settled.congr (survivors_within child survivor inAll) (fun ref inRefs => ?_)
        fun _ _ => rfl
      refine (walker_frame first heap fun inFirst => ?_).symm
      exact apart inFirst (List.mem_flatMap.mpr ⟨child, later, inRefs⟩)

theorem walker_settled (plan : Plan V) (unshared : plan.refs.Nodup) (heap : Heap) :
    ∀ survivor ∈ plan.survivors.all,
      survivor.Settled heap (removeRedundantResultsWalker plan heap).2 := by
  induction plan using Plan.induct generalizing heap with
  | node info targetlist children ih =>
    obtain ⟨declared_apart, unshared_children⟩ := unshared_node unshared
    have below := @recursePlanChildren_settled V children heap unshared_children
      fun child isChild heap => ih child isChild (unshared_child unshared_children isChild) heap
    have declared_same : ∀ ref ∈ Expr.refsArgs targetlist,
        (recursePlanChildren children heap).2 ref = heap ref := fun ref declared =>
      recursePlanChildren_frame (fun child _ heap outside => walker_frame child heap outside)
        (declared_apart ref declared)
    intro survivor mem
    cases survivors_cases info targetlist children with
    | inr kept =>
      rw [walker_snd_keep kept.1]
      rw [kept.2] at mem
      cases List.mem_cons.mp mem with
      | inl isRoot =>
        intro absorbed isAbsorbed
        rw [isRoot] at isAbsorbed
        cases isAbsorbed
      | inr under =>
        obtain ⟨child, isChild, inAll⟩ := List.mem_flatMap.mp under
        exact below child isChild survivor inAll
    | inl step =>
      obtain ⟨child, rest, shape, redundant, survivors⟩ := step
      subst shape
      have child_within := survivors_within child _ List.mem_cons_self
      rw [walker_snd_absorb redundant]
      rw [survivors] at mem
      cases List.mem_cons.mp mem with
      | inl isRoot =>
        rw [isRoot]
        intro absorbed isAbsorbed ref _ typmod last
        cases isAbsorbed
        -- No variable of the target list is a node of the child.
        rw [foldl_write fun reader inVars var _ leads =>
          declared_apart reader.1 (mem_refsArgs_of_mem_varsArgs inVars) child List.mem_cons_self
            (child_within.own _ (mem_refsArgs_of_target leads))]
        rw [lastTypmod_congr fun var inVars =>
          declared_same var.1 (mem_refsArgs_of_mem_varsArgs inVars), last]
        rfl
      | inr under =>
        have settled := below child List.mem_cons_self survivor (List.mem_cons_of_mem _ under)
        have apart := root_apart child (unshared_child unshared_children List.mem_cons_self)
          survivor under
        refine settled.congr (survivors_within child survivor (List.mem_cons_of_mem _ under))
          (fun _ _ => rfl) fun ref inRefs => ?_
        exact foldl_write_frame fun inRoot => apart ref inRoot inRefs

/-- Each plain variable of the removed target list that became a `Var` or a `Const` of the child
gave it its type modifier. -/
def Survivor.Keeps (before after : Heap) (survivor : Survivor V) : Prop :=
  ∀ absorbed ∈ survivor.absorbed, ∀ (i ref : ℕ) (varno : Varno) (varattno : ℤ),
    absorbed.declared[i]? = some (.var ref varno varattno) →
    ∀ expr node, survivor.plan.targetlist[i]? = some expr → expr.ref? = some node →
      after node = before ref

/-- Each plain variable of the target list has the type modifier of the last variable in the list
that leads to the same node of the child. -/
def Absorption.Agrees (heap : Heap) (absorbed : Absorption V) : Prop :=
  ∀ (ref : ℕ) (varno : Varno) (varattno : ℤ), .var ref varno varattno ∈ absorbed.declared →
    ∀ node, target absorbed.child varattno = some node →
      lastTypmod absorbed.child heap node (Expr.varsArgs absorbed.declared) = some (heap ref)

variable {ref : ℕ} {varno : Varno} {varattno : ℤ}

theorem mem_varsArgs {args : List (Expr V)} (mem : .var ref varno varattno ∈ args)
    (safe : tlistUnsafeToPushWalker (.var ref varno varattno : Expr V) = false) :
    varno = .outer ∧ 0 < varattno ∧ (ref, varattno) ∈ Expr.varsArgs args := by
  simp only [tlistUnsafeToPushWalker, Expr.anyNode, Bool.or_eq_false_iff, decide_eq_false_iff_not,
    not_not, Int.not_le] at safe
  refine ⟨safe.1, safe.2, ?_⟩
  rw [varsArgs_eq_flatMap]
  refine List.mem_flatMap.mpr ⟨_, mem, ?_⟩
  unfold Expr.vars
  rw [if_pos safe]
  exact List.mem_singleton_self _

theorem Survivor.Sound.output {absorbed : Absorption V} (sound : survivor.Sound)
    (isAbsorbed : absorbed ∈ survivor.absorbed) {i : ℕ}
    (declared : absorbed.declared[i]? = some (.var ref varno varattno)) :
    survivor.plan.targetlist[i]? = absorbed.child[varattno.toNat - 1]? := by
  have safe := sound.safe absorbed isAbsorbed _ (List.mem_of_getElem? declared)
  obtain ⟨outer, positive, -⟩ := mem_varsArgs (List.mem_of_getElem? declared) safe.1
  have bound : varattno.toNat - 1 < absorbed.child.length := by
    have known := safe.2
    simp only [Expr.anyNode, stray, outer, decide_true, Bool.true_and, decide_eq_false_iff_not,
      Nat.not_lt] at known
    omega
  rw [sound.pushed absorbed isAbsorbed, substArgs_eq_map, List.getElem?_map, declared]
  rw [Option.map_some, Expr.subst, if_pos ⟨outer, positive⟩, List.getElem?_eq_getElem bound]
  rfl

theorem Survivor.Sound.keeps_iff (sound : survivor.Sound)
    (settled : survivor.Settled before after) :
    survivor.Keeps before after ↔ ∀ absorbed ∈ survivor.absorbed, absorbed.Agrees before := by
  -- Every variable that leads to a node of the child makes that node a written one.
  have written : ∀ absorbed ∈ survivor.absorbed, ∀ (i ref : ℕ) (varno : Varno) (varattno : ℤ),
      absorbed.declared[i]? = some (.var ref varno varattno) →
      ∀ node, target absorbed.child varattno = some node →
        lastTypmod absorbed.child before node (Expr.varsArgs absorbed.declared) =
          some (after node) := by
    intro absorbed isAbsorbed i ref varno varattno declared node leads
    have mem := List.mem_of_getElem? declared
    have inVars := (mem_varsArgs mem (sound.safe absorbed isAbsorbed _ mem).1).2.2
    obtain ⟨expr, column, found⟩ := Option.bind_eq_some_iff.mp leads
    have inRefs : node ∈ survivor.refs := by
      rw [← sound.output isAbsorbed declared] at column
      unfold Survivor.refs
      rw [refsArgs_eq_flatMap]
      exact List.mem_flatMap.mpr ⟨expr, List.mem_of_getElem? column, mem_refs_of_ref? found⟩
    obtain ⟨typmod, last⟩ := Option.isSome_iff_exists.mp
      (@lastTypmod_isSome V absorbed.child before _ node _ inVars leads)
    rw [last, settled absorbed isAbsorbed node inRefs typmod last]
  constructor
  · intro keeps absorbed isAbsorbed ref varno varattno mem node leads
    obtain ⟨i, declared⟩ := List.mem_iff_getElem?.mp mem
    obtain ⟨expr, column, found⟩ := Option.bind_eq_some_iff.mp leads
    rw [← sound.output isAbsorbed declared] at column
    rw [written absorbed isAbsorbed i ref varno varattno declared node leads,
      keeps absorbed isAbsorbed i ref varno varattno declared expr node column found]
  · intro agrees absorbed isAbsorbed i ref varno varattno declared expr node column found
    rw [sound.output isAbsorbed declared] at column
    have leads : target absorbed.child varattno = some node :=
      Option.bind_eq_some_iff.mpr ⟨expr, column, found⟩
    have agreed := agrees absorbed isAbsorbed ref varno varattno (List.mem_of_getElem? declared)
      node leads
    rw [written absorbed isAbsorbed i ref varno varattno declared node leads] at agreed
    exact Option.some.inj agreed

/-- The removal returns a tree whose nodes make the rows of the plans they stand for. A node that
absorbed a `Result` keeps the type modifiers of its outputs exactly where they agree. -/
theorem removal_preserves_plan (machine : Machine V T) (plan : Plan V)
    (referenced : WellReferenced plan) (unshared : plan.refs.Nodup) (heap : Heap) :
    (removeRedundantResultsWalker plan heap).1.nodes = plan.survivors.all.map Survivor.plan ∧
      plan.survivors.root.origin = plan ∧
      ∀ survivor ∈ plan.survivors.all,
        survivor.plan.rows machine = survivor.origin.rows machine ∧
        (survivor.Keeps heap (removeRedundantResultsWalker plan heap).2 ↔
          ∀ absorbed ∈ survivor.absorbed, absorbed.Agrees heap) := by
  refine ⟨?_, root_origin plan, fun survivor mem => ?_⟩
  · rw [walker_fst]
    exact nodes_survivors plan
  · have sound := survivors_sound referenced survivor mem
    exact ⟨sound.rows_eq, sound.keeps_iff (walker_settled plan unshared heap survivor mem)⟩

def noEstimates : Estimates := ⟨0, 0, 0, 0⟩

/-- A scan with one column under a `Result` with two outputs that read it. -/
def readTwice : Plan ℕ :=
  .node ⟨0, true, false, false, false, true, noEstimates⟩
    [.var 1 .outer 1, .var 2 .outer 1]
    [.node ⟨1, false, false, false, false, true, noEstimates⟩ [.var 0 (.other 1) 1] []]

def oneRow : Machine ℕ (List ℕ) where
  null := 0
  outer := id
  resultTuple := id
  outer_resultTuple := fun _ => rfl
  var := fun tuple _ varattno => (tuple[varattno.toNat - 1]?).getD 0
  param := fun _ _ => 0
  subPlan := fun _ _ => 0
  aggref := fun _ _ => 0
  func := fun _ _ => 0
  tuples := fun _ _ => [[3]]
  passed := fun _ _ => []

theorem readTwice_referenced : WellReferenced readTwice := by
  constructor
  · intro child mem
    cases List.mem_singleton.mp mem
    constructor
    · intro grandchild none
      cases none
    · intro isResult
      cases isResult
  · intro _ child head expr mem
    cases head
    simp only [List.mem_cons, List.not_mem_nil, or_false] at mem
    cases mem with
    | inl first =>
      rw [first]
      rfl
    | inr second =>
      rw [second]
      rfl

theorem readTwice_agrees : ∀ absorbed ∈ readTwice.survivors.root.absorbed,
    absorbed.Agrees fun _ => 5 := by
  intro absorbed isAbsorbed ref varno varattno mem node leads
  cases isAbsorbed
  simp only [List.mem_cons, List.not_mem_nil, or_false, Expr.var.injEq] at mem
  have column : varattno = 1 := by omega
  subst column
  cases leads
  rfl

theorem readTwice_keeps :
    readTwice.survivors.root.plan.rows oneRow = [[3, 3]] ∧
      readTwice.survivors.root.Keeps (fun _ => 5)
        (removeRedundantResultsWalker readTwice fun _ => 5).2 := by
  have preserved := (removal_preserves_plan oneRow readTwice readTwice_referenced (by decide)
    fun _ => 5).2.2 readTwice.survivors.root List.mem_cons_self
  exact ⟨preserved.1, preserved.2.mpr readTwice_agrees⟩

/-- Outputs with the type modifiers 5 and 7 that read one column both end up with 7. -/
theorem removal_loses_typmod :
    WellReferenced readTwice ∧ readTwice.refs.Nodup ∧
      (removeRedundantResultsWalker readTwice fun | 1 => 5 | 2 => 7 | _ => -1).1.targetlist =
        [.var 0 (.other 1) 1, .var 0 (.other 1) 1] ∧
      (removeRedundantResultsWalker readTwice fun | 1 => 5 | 2 => 7 | _ => -1).2 0 = 7 ∧
      ¬ readTwice.survivors.root.Keeps (fun | 1 => 5 | 2 => 7 | _ => -1)
        (removeRedundantResultsWalker readTwice fun | 1 => 5 | 2 => 7 | _ => -1).2 := by
  refine ⟨readTwice_referenced, by decide, rfl, rfl, fun keeps => ?_⟩
  have kept := keeps _ rfl 0 1 .outer 1 rfl (.var 0 (.other 1) 1) 0 rfl rfl
  exact absurd kept (by decide)

end Typmods
end RedundantResults
