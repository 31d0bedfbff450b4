import Mathlib.Data.Finset.Basic
import Mathlib.Data.List.Sort

/-!
`CPartPruneStepsBuilder`: the filter of a partitioned scan as a list of pruning steps, and the map
from the partitions of the table to the subplans of the scan. A step for a comparison finds a set
of partitions; a step that combines names the steps whose sets it intersects or unites.
-/
namespace PartPrune

inductive EdxlBoolExprType where
  | edxlnot
  | edxland
  | edxlor
  deriving DecidableEq, Repr

/-- A node of the filter. `other` is any operator but a comparison and a boolean one. -/
inductive CDXLNode (Scalar : Type) where
  | scalarCmp (opno : ℕ) (right : Scalar)
  | scalarBoolExpr (boolType : EdxlBoolExprType) (children : List (CDXLNode Scalar))
  | other

/-- A translated expression; `exec` is set for the parameters of kind `PARAM_EXEC`. -/
inductive Expr where
  | param (exec : Bool) (paramid : ℕ)
  | node (tag : ℕ) (args : List Expr)

inductive PartitionPruneCombineOp where
  | union
  | intersect
  deriving DecidableEq, Repr

inductive PartitionPruneStep where
  | op (stepId opstrategy : ℕ) (cmpfns : List ℕ) (exprs : List Expr)
  | combine (stepId : ℕ) (combineOp : PartitionPruneCombineOp) (sourceStepids : List ℕ)

namespace PartitionPruneStep

def stepId : PartitionPruneStep → ℕ
  | .op stepId _ _ _ => stepId
  | .combine stepId _ _ => stepId

def exprs : PartitionPruneStep → List Expr
  | .op _ _ _ exprs => exprs
  | .combine _ _ _ => []

def sources : PartitionPruneStep → List ℕ
  | .op _ _ _ _ => []
  | .combine _ _ sourceStepids => sourceStepids

end PartitionPruneStep

/-- What the builder is made with, and what it asks the catalog and the translator. The oid zero
is invalid. -/
structure CPartPruneStepsBuilder (Scalar : Type) where
  rtindex : ℕ
  oids : List ℕ
  partopfamily : ℕ
  partsupfunc : ℕ
  partIndexes : List ℕ
  childRtindexes : List ℕ
  indexOpProperties : ℕ → ℕ → ℕ × ℕ
  translateDXLToScalar : Scalar → Expr

structure PartEntry where
  subpart : ℤ
  subplan : ℤ
  relid : ℕ
  leafpartRti : ℕ
  present : Bool
  deriving DecidableEq, Repr

structure PartitionedRelPruneInfo where
  rtindex : ℕ
  nparts : ℕ
  entries : List PartEntry
  initialPruningSteps : List PartitionPruneStep
  execPruningSteps : List PartitionPruneStep
  execparamids : Finset ℕ

section Building

mutual

def collectExecParamWalker : Expr → Finset ℕ → Finset ℕ
  | .param exec paramid, paramids => if exec then insert paramid paramids else paramids
  | .node _ args, paramids => collectFromArgs args paramids

def collectFromArgs : List Expr → Finset ℕ → Finset ℕ
  | [], paramids => paramids
  | arg :: rest, paramids => collectFromArgs rest (collectExecParamWalker arg paramids)

end

def combineOp : EdxlBoolExprType → Option PartitionPruneCombineOp
  | .edxlnot => none
  | .edxland => some .intersect
  | .edxlor => some .union

variable {Scalar : Type} (builder : CPartPruneStepsBuilder Scalar)

namespace CPartPruneStepsBuilder

abbrev Steps := ℕ × List PartitionPruneStep

def partPruneStepFromScalarCmp (opno : ℕ) (right : Scalar) : Steps → Except String Steps
  | (stepId, steps) =>
    let properties := builder.indexOpProperties opno builder.partopfamily
    if properties.2 = 0 then .error "Could not find op in partition table's opfamily"
    else .ok (stepId + 1, steps ++ [.op stepId properties.1 [builder.partsupfunc]
      [builder.translateDXLToScalar right]])

def partPruneStepFromScalarBoolExpr (boolType : EdxlBoolExprType)
    (children : Steps → List ℕ → Except String (Steps × List ℕ)) (state : Steps) :
    Except String Steps :=
  match combineOp boolType with
  | none => .error "NOT expressions in DPE filter expr unsupported"
  | some combineOp =>
    match children state [] with
    | .error message => .error message
    | .ok ((stepId, steps), stepids) =>
      .ok (stepId + 1, steps ++ [.combine stepId combineOp stepids])

mutual

def partPruneStepsFromFilter : CDXLNode Scalar → Steps → Except String Steps
  | .scalarCmp opno right, state => builder.partPruneStepFromScalarCmp opno right state
  | .scalarBoolExpr boolType children, state =>
    partPruneStepFromScalarBoolExpr boolType (stepsFromChildren children) state
  | .other, _ => .error "Unsupported operator in PartPruneStepsFromFilter"

def stepsFromChildren : List (CDXLNode Scalar) → Steps → List ℕ → Except String (Steps × List ℕ)
  | [], state, stepids => .ok (state, stepids)
  | child :: rest, state, stepids =>
    match partPruneStepsFromFilter child state with
    | .error message => .error message
    | .ok state =>
      match state.2.getLast? with
      | none => .error "no step for a child"
      | some last => stepsFromChildren rest state (stepids ++ [last.stepId])

end

/-- The loop over the partitions, from the position `i` of the descriptor on. -/
def partEntries : List ℕ → ℕ → ℕ → List PartEntry
  | [], _, _ => []
  | oid :: oids, i, partPtr =>
    if builder.partIndexes[partPtr]? = some i then
      ⟨-1, partPtr, oid, builder.childRtindexes.getD partPtr 0, true⟩ ::
        partEntries oids (i + 1) (partPtr + 1)
    else ⟨-1, -1, 0, 0, false⟩ :: partEntries oids (i + 1) partPtr

def createPartPruneInfoForOneLevel (filter : CDXLNode Scalar) :
    Except String PartitionedRelPruneInfo :=
  match builder.partPruneStepsFromFilter filter (0, []) with
  | .error message => .error message
  | .ok (_, allSteps) =>
    let execparamids := collectFromArgs (allSteps.flatMap PartitionPruneStep.exprs) ∅
    let constant := decide (execparamids = ∅)
    .ok {
      rtindex := builder.rtindex
      nparts := builder.oids.length
      entries := builder.partEntries builder.oids 0 0
      initialPruningSteps := if constant then allSteps else []
      execPruningSteps := if constant then [] else allSteps
      execparamids }

end CPartPruneStepsBuilder

end Building

section Meaning

variable {Scalar : Type} (prune : ℕ → List ℕ → List Expr → Set ℕ)

def PartitionPruneCombineOp.combine : PartitionPruneCombineOp → List (Set ℕ) → Set ℕ
  | .union, sets => {part | ∃ set ∈ sets, part ∈ set}
  | .intersect, sets => {part | ∀ set ∈ sets, part ∈ set}

def PartitionPruneStep.run (results : ℕ → Set ℕ) : PartitionPruneStep → ℕ → Set ℕ
  | .op stepId opstrategy cmpfns exprs =>
    Function.update results stepId (prune opstrategy cmpfns exprs)
  | .combine stepId combineOp sourceStepids =>
    Function.update results stepId (combineOp.combine (sourceStepids.map results))

def runSteps (steps : List PartitionPruneStep) (results : ℕ → Set ℕ) : ℕ → Set ℕ :=
  steps.foldl (PartitionPruneStep.run prune) results

mutual

/-- The partitions that a filter keeps, where a comparison keeps those that its step finds. -/
def CDXLNode.parts (builder : CPartPruneStepsBuilder Scalar) : CDXLNode Scalar → Set ℕ
  | .scalarCmp opno right =>
    prune (builder.indexOpProperties opno builder.partopfamily).1 [builder.partsupfunc]
      [builder.translateDXLToScalar right]
  | .scalarBoolExpr .edxland children =>
    {part | ∀ set ∈ childParts builder children, part ∈ set}
  | .scalarBoolExpr .edxlor children =>
    {part | ∃ set ∈ childParts builder children, part ∈ set}
  | .scalarBoolExpr .edxlnot children =>
    {part | ∀ set ∈ childParts builder children, part ∉ set}
  | .other => ∅

def childParts (builder : CPartPruneStepsBuilder Scalar) : List (CDXLNode Scalar) → List (Set ℕ)
  | [] => []
  | child :: rest => child.parts builder :: childParts builder rest

end

mutual

def CDXLNode.Usable (builder : CPartPruneStepsBuilder Scalar) : CDXLNode Scalar → Prop
  | .scalarCmp opno _ => (builder.indexOpProperties opno builder.partopfamily).2 ≠ 0
  | .scalarBoolExpr boolType children => boolType ≠ .edxlnot ∧ UsableAll builder children
  | .other => False

def UsableAll (builder : CPartPruneStepsBuilder Scalar) : List (CDXLNode Scalar) → Prop
  | [] => True
  | child :: rest => child.Usable builder ∧ UsableAll builder rest

end

end Meaning

section Code

open CPartPruneStepsBuilder

variable {Scalar : Type} {builder : CPartPruneStepsBuilder Scalar} {first : ℕ}
  {code rest : List PartitionPruneStep} {prune : ℕ → List ℕ → List Expr → Set ℕ}

/-- Steps numbered from `first` on, each of which combines earlier ones. -/
structure Numbered (first : ℕ) (code : List PartitionPruneStep) : Prop where
  ids : code.map PartitionPruneStep.stepId = List.range' first code.length
  earlier : ∀ step ∈ code, ∀ source ∈ step.sources, source < step.stepId

theorem Numbered.nil : Numbered first [] := ⟨rfl, by simp⟩

theorem Numbered.append (numbered : Numbered first code)
    (later : Numbered (first + code.length) rest) : Numbered first (code ++ rest) := by
  constructor
  · rw [List.map_append, numbered.ids, later.ids, List.length_append, List.range'_append_1]
  · intro step member
    rcases List.mem_append.mp member with before | after
    · exact numbered.earlier step before
    · exact later.earlier step after

theorem Numbered.singleton {step : PartitionPruneStep} (id : step.stepId = first)
    (earlier : ∀ source ∈ step.sources, source < first) : Numbered first [step] := by
  constructor
  · simp [id]
  · intro other only
    rw [List.mem_singleton.mp only, id]
    exact earlier

theorem Numbered.le_stepId (numbered : Numbered first code) {step : PartitionPruneStep}
    (member : step ∈ code) : first ≤ step.stepId := by
  have listed : step.stepId ∈ code.map PartitionPruneStep.stepId := List.mem_map_of_mem member
  rw [numbered.ids, List.mem_range'_1] at listed
  exact listed.1

theorem runSteps_append (results : ℕ → Set ℕ) :
    runSteps prune (code ++ rest) results = runSteps prune rest (runSteps prune code results) :=
  List.foldl_append

theorem Numbered.run_frame (numbered : Numbered first code) (results : ℕ → Set ℕ) {id : ℕ}
    (before : id < first) : runSteps prune code results id = results id := by
  have kept : ∀ l : List PartitionPruneStep, (∀ step ∈ l, first ≤ step.stepId) →
      ∀ results, runSteps prune l results id = results id := by
    intro l
    induction l with
    | nil => exact fun _ _ => rfl
    | cons step l ih =>
      intro above results
      have other : id ≠ step.stepId := by
        have bound := above step List.mem_cons_self
        omega
      calc runSteps prune (step :: l) results id
          = step.run prune results id :=
            ih (fun s listed => above s (List.mem_cons_of_mem step listed)) _
        _ = results id := by
          cases step <;> exact Function.update_of_ne other _ _
  exact kept code (fun step => numbered.le_stepId) results

structure Compiled (prune : ℕ → List ℕ → List Expr → Set ℕ) (first : ℕ)
    (code : List PartitionPruneStep) (parts : Set ℕ) : Prop extends Numbered first code where
  nonempty : code ≠ []
  result : ∀ results, runSteps prune code results (first + code.length - 1) = parts

structure CompiledAll (prune : ℕ → List ℕ → List Expr → Set ℕ) (first : ℕ)
    (code : List PartitionPruneStep) (operands : List ℕ) (sets : List (Set ℕ)) : Prop
    extends Numbered first code where
  bound : ∀ id ∈ operands, id < first + code.length
  result : ∀ results, operands.map (runSteps prune code results) = sets

theorem CompiledAll.nil : CompiledAll prune first [] [] [] := ⟨.nil, by simp, by simp⟩

theorem CompiledAll.cons {operands : List ℕ} {parts : Set ℕ} {sets : List (Set ℕ)}
    (child : Compiled prune first code parts)
    (others : CompiledAll prune (first + code.length) rest operands sets) :
    CompiledAll prune first (code ++ rest) ((first + code.length - 1) :: operands)
      (parts :: sets) := by
  have positive := List.length_pos_iff.mpr child.nonempty
  refine ⟨child.toNumbered.append others.toNumbered, ?_, ?_⟩
  · intro id listed
    rw [List.length_append]
    rcases List.mem_cons.mp listed with rfl | later
    · omega
    · have bound := others.bound id later
      omega
  · intro results
    -- the steps of the other children do not touch the last step of this one
    rw [List.map_cons, runSteps_append, others.run_frame _ (by omega), child.result,
      others.result]

theorem CompiledAll.combine {operands : List ℕ} {sets : List (Set ℕ)}
    (children : CompiledAll prune first code operands sets) (combineOp : PartitionPruneCombineOp) :
    Compiled prune first (code ++ [.combine (first + code.length) combineOp operands])
      (combineOp.combine sets) := by
  refine ⟨children.append (.singleton rfl children.bound), by simp, fun results => ?_⟩
  rw [runSteps_append, List.length_append, List.length_singleton, ← Nat.add_assoc,
    Nat.add_sub_cancel, ← children.result results]
  exact Function.update_self _ _ _

theorem Compiled.getLast {parts : Set ℕ} (compiled : Compiled prune first code parts)
    (steps : List PartitionPruneStep) :
    ∃ last, (steps ++ code).getLast? = some last ∧ last.stepId = first + code.length - 1 := by
  have present : code.getLast? = some (code.getLast compiled.nonempty) :=
    List.getLast?_eq_some_getLast compiled.nonempty
  refine ⟨code.getLast compiled.nonempty, ?_, ?_⟩
  · rw [List.getLast?_append, present, Option.some_or]
  · have mapped : (code.map PartitionPruneStep.stepId).getLast? =
        some (code.getLast compiled.nonempty).stepId := by
      rw [List.getLast?_map, present, Option.map_some]
    have positive := List.length_pos_iff.mpr compiled.nonempty
    rw [compiled.ids, List.getLast?_range', if_neg (by omega), Option.some.injEq] at mapped
    omega

theorem parts_boolExpr {boolType : EdxlBoolExprType} {op : PartitionPruneCombineOp}
    {children : List (CDXLNode Scalar)} (known : combineOp boolType = some op) :
    (CDXLNode.scalarBoolExpr boolType children).parts prune builder =
      op.combine (childParts prune builder children) := by
  cases boolType with
  | edxlnot => cases known
  | edxland =>
    cases known
    rw [CDXLNode.parts, PartitionPruneCombineOp.combine]
  | edxlor =>
    cases known
    rw [CDXLNode.parts, PartitionPruneCombineOp.combine]

mutual

theorem partPruneStepsFromFilter_spec : (filter : CDXLNode Scalar) →
    ∀ (first : ℕ) (steps : List PartitionPruneStep),
    (¬ filter.Usable builder ∧
      ∃ message, builder.partPruneStepsFromFilter filter (first, steps) = .error message) ∨
    (filter.Usable builder ∧ ∃ code, builder.partPruneStepsFromFilter filter (first, steps) =
        .ok (first + code.length, steps ++ code) ∧
      ∀ prune, Compiled prune first code (filter.parts prune builder))
  | .scalarCmp opno right, first, steps => by
    rw [CDXLNode.Usable, partPruneStepsFromFilter, partPruneStepFromScalarCmp]
    by_cases unknown : (builder.indexOpProperties opno builder.partopfamily).2 = 0
    · exact .inl ⟨not_not.mpr unknown, _, if_pos unknown⟩
    · refine .inr ⟨unknown, [.op first (builder.indexOpProperties opno builder.partopfamily).1
        [builder.partsupfunc] [builder.translateDXLToScalar right]], if_neg unknown, fun prune => ?_⟩
      refine ⟨.singleton rfl (by simp [PartitionPruneStep.sources]), by simp, fun results => ?_⟩
      rw [CDXLNode.parts]
      exact Function.update_self _ _ _
  | .scalarBoolExpr boolType children, first, steps => by
    rw [CDXLNode.Usable, partPruneStepsFromFilter, partPruneStepFromScalarBoolExpr]
    cases known : combineOp boolType with
    | none =>
      have negated : boolType = .edxlnot := by cases boolType <;> simp_all [combineOp]
      exact .inl ⟨fun usable => usable.1 negated, _, rfl⟩
    | some op =>
      have combined : boolType ≠ .edxlnot := by
        rintro rfl
        cases known
      rcases stepsFromChildren_spec children first steps [] with
        ⟨unusable, message, failed⟩ | ⟨usable, code, operands, built, compiled⟩
      · exact .inl ⟨fun usable => unusable usable.2, message, by rw [failed]⟩
      · refine .inr ⟨⟨combined, usable⟩, code ++ [.combine (first + code.length) op operands], ?_,
          fun prune => ?_⟩
        · simp only [built, List.nil_append, List.append_assoc, List.length_append,
            List.length_singleton, Nat.add_assoc]
        · rw [parts_boolExpr known]
          exact (compiled prune).combine op
  | .other, _, _ => by
    rw [CDXLNode.Usable, partPruneStepsFromFilter]
    exact .inl ⟨id, _, rfl⟩

theorem stepsFromChildren_spec : (children : List (CDXLNode Scalar)) →
    ∀ (first : ℕ) (steps : List PartitionPruneStep) (before : List ℕ),
    (¬ UsableAll builder children ∧
      ∃ message, builder.stepsFromChildren children (first, steps) before = .error message) ∨
    (UsableAll builder children ∧ ∃ code operands,
      builder.stepsFromChildren children (first, steps) before =
        .ok ((first + code.length, steps ++ code), before ++ operands) ∧
      ∀ prune, CompiledAll prune first code operands (childParts prune builder children))
  | [], first, steps, before => by
    rw [UsableAll]
    refine .inr ⟨trivial, [], [], by simp [stepsFromChildren], fun prune => ?_⟩
    rw [childParts]
    exact .nil
  | child :: rest, first, steps, before => by
    rw [UsableAll, stepsFromChildren]
    rcases partPruneStepsFromFilter_spec child first steps with
      ⟨unusable, message, failed⟩ | ⟨usable, code, built, compiled⟩
    · exact .inl ⟨fun usable => unusable usable.1, message, by rw [failed]⟩
    · obtain ⟨last, isLast, id⟩ := (compiled fun _ _ _ => ∅).getLast steps
      simp only [built, isLast]
      rcases stepsFromChildren_spec rest (first + code.length) (steps ++ code)
        (before ++ [last.stepId]) with
        ⟨unusable, message, failed⟩ | ⟨usableRest, more, operands, builtRest, compiledRest⟩
      · exact .inl ⟨fun usable => unusable usable.2, message, failed⟩
      · refine .inr ⟨⟨usable, usableRest⟩, code ++ more, last.stepId :: operands, ?_,
          fun prune => ?_⟩
        · simp only [builtRest, List.append_assoc, List.length_append, Nat.add_assoc,
            List.singleton_append]
        · rw [childParts, id]
          exact .cons (compiled prune) (compiledRest prune)

end

theorem index_lt_iff {list : List ℕ} (increasing : list.Pairwise (· < ·)) {j k a b : ℕ}
    (first : list[j]? = some a) (second : list[k]? = some b) : j < k ↔ a < b := by
  obtain ⟨boundJ, rfl⟩ := List.getElem?_eq_some_iff.mp first
  obtain ⟨boundK, rfl⟩ := List.getElem?_eq_some_iff.mp second
  exact increasing.sortedLT.getElem_lt_getElem_iff.symm

theorem partEntries_subplan (increasing : builder.partIndexes.Pairwise (· < ·)) (oids : List ℕ)
    {i partPtr : ℕ}
    (passed : ∀ j part, builder.partIndexes[j]? = some part → (j < partPtr ↔ part < i)) {k : ℕ}
    (bound : k < oids.length) :
    ∃ entry, (builder.partEntries oids i partPtr)[k]? = some entry ∧
      (∀ j : ℕ, builder.partIndexes[j]? = some (i + k) → entry.subplan = j) ∧
      (i + k ∉ builder.partIndexes → entry.subplan = -1) := by
  induction oids generalizing i partPtr k with
  | nil => exact absurd bound (Nat.not_lt_zero k)
  | cons oid oids ih =>
    rw [partEntries]
    by_cases here : builder.partIndexes[partPtr]? = some i
    · rw [if_pos here]
      cases k with
      | zero =>
        refine ⟨_, List.getElem?_cons_zero, fun j found => ?_, fun missing => ?_⟩
        · have before := index_lt_iff increasing here found
          have after := index_lt_iff increasing found here
          have same : partPtr = j := by omega
          rw [same]
        · exact absurd (List.mem_of_getElem? here) missing
      | succ k =>
        rw [List.getElem?_cons_succ, Nat.add_comm k, ← Nat.add_assoc]
        refine ih (fun j part found => ?_) (Nat.lt_of_succ_lt_succ bound)
        have after := index_lt_iff increasing here found
        omega
    · -- the next surviving partition, if any, comes later
      have absent : ∀ j : ℕ, builder.partIndexes[j]? ≠ some i := by
        intro j found
        have notBefore := passed j i found
        have differs : j ≠ partPtr := fun same => here (same ▸ found)
        have later : partPtr < j := by omega
        have inside := (List.getElem?_eq_some_iff.mp found).1
        have next : builder.partIndexes[partPtr]? = some builder.partIndexes[partPtr] :=
          List.getElem?_eq_getElem (later.trans inside)
        have less := (index_lt_iff increasing next found).mp later
        exact Nat.lt_irrefl partPtr ((passed partPtr _ next).mpr less)
      rw [if_neg here]
      cases k with
      | zero =>
        exact ⟨_, List.getElem?_cons_zero, fun j found => absurd found (absent j), fun _ => rfl⟩
      | succ k =>
        rw [List.getElem?_cons_succ, Nat.add_comm k, ← Nat.add_assoc]
        refine ih (fun j part found => ?_) (Nat.lt_of_succ_lt_succ bound)
        have before := passed j part found
        have differs : part ≠ i := fun same => absent j (same ▸ found)
        omega

end Code

section Results

open CPartPruneStepsBuilder

variable {Scalar : Type} (builder : CPartPruneStepsBuilder Scalar) (filter : CDXLNode Scalar)

def PartitionedRelPruneInfo.steps (info : PartitionedRelPruneInfo) : List PartitionPruneStep :=
  info.initialPruningSteps ++ info.execPruningSteps

theorem create_ok {info : PartitionedRelPruneInfo}
    (created : builder.createPartPruneInfoForOneLevel filter = .ok info) :
    ∃ next, builder.partPruneStepsFromFilter filter (0, []) = .ok (next, info.steps) ∧
      info.entries = builder.partEntries builder.oids 0 0 := by
  unfold createPartPruneInfoForOneLevel at created
  split at created
  · cases created
  · rename_i next steps built
    cases created
    refine ⟨next, ?_, rfl⟩
    rw [built, PartitionedRelPruneInfo.steps]
    dsimp only
    split <;> simp

/-- A filter is translated exactly if it is a tree of AND and OR over comparisons of the operator
family. The steps are numbered in order, they combine earlier steps only, and the last one finds
the partitions of the filter. The partition that survives at place `i` has the subplan `i`. -/
theorem prune_steps_compile_filter :
    ((∃ info, builder.createPartPruneInfoForOneLevel filter = .ok info) ↔ filter.Usable builder) ∧
    ∀ info, builder.createPartPruneInfoForOneLevel filter = .ok info →
      info.steps.map PartitionPruneStep.stepId = List.range info.steps.length ∧
      (∀ (k : ℕ) (step : PartitionPruneStep), info.steps[k]? = some step →
        ∀ source ∈ step.sources, source < k) ∧
      (∃ last, info.steps.getLast? = some last ∧ ∀ prune results,
        runSteps prune info.steps results last.stepId = filter.parts prune builder) ∧
      (builder.partIndexes.Pairwise (· < ·) → ∀ part < builder.oids.length,
        ∃ entry, info.entries[part]? = some entry ∧
          (∀ i : ℕ, builder.partIndexes[i]? = some part → entry.subplan = i) ∧
          (part ∉ builder.partIndexes → entry.subplan = -1)) := by
  rcases @partPruneStepsFromFilter_spec Scalar builder filter 0 [] with
    ⟨unusable, message, failed⟩ | ⟨usable, code, made, compiled⟩
  · have refused : ∀ info, builder.createPartPruneInfoForOneLevel filter ≠ .ok info := by
      intro info created
      obtain ⟨next, built, -⟩ := create_ok builder filter created
      rw [failed] at built
      cases built
    refine ⟨⟨?_, fun usable => absurd usable unusable⟩,
      fun info created => absurd created (refused info)⟩
    rintro ⟨info, created⟩
    exact absurd created (refused info)
  · refine ⟨⟨fun _ => usable, fun _ => ⟨_, by rw [createPartPruneInfoForOneLevel, made]⟩⟩, ?_⟩
    intro info created
    obtain ⟨next, built, entries⟩ := create_ok builder filter created
    rw [built, List.nil_append, Except.ok.injEq, Prod.mk.injEq] at made
    rw [made.2, entries]
    have numbered := (compiled fun _ _ _ => ∅).toNumbered
    have ids := numbered.ids
    rw [← List.range_eq_range'] at ids
    refine ⟨ids, fun k step found source listed => ?_, ?_, fun increasing part bound => ?_⟩
    · have id : step.stepId = k := by
        have mapped := congrArg (·[k]?) ids
        simp only [List.getElem?_map, found, Option.map_some] at mapped
        have inside := (List.getElem?_eq_some_iff.mp found).1
        rw [List.getElem?_range inside] at mapped
        exact Option.some.inj mapped
      rw [← id]
      exact numbered.earlier step (List.mem_of_getElem? found) source listed
    · obtain ⟨last, isLast, id⟩ := (compiled fun _ _ _ => ∅).getLast []
      refine ⟨last, isLast, fun prune results => ?_⟩
      rw [id]
      exact (compiled prune).result results
    · have entry := @partEntries_subplan Scalar builder increasing builder.oids 0 0
        (fun j part _ => by omega) part bound
      rwa [Nat.zero_add] at entry

/-- Partitions one and three of four survive; the key is between two constants or is a third. -/
def fourPartitions : CPartPruneStepsBuilder ℕ where
  rtindex := 1
  oids := [100, 101, 102, 103]
  partopfamily := 1976
  partsupfunc := 351
  partIndexes := [1, 3]
  childRtindexes := [7, 8]
  indexOpProperties opno _ := (opno, 23)
  translateDXLToScalar tag := .node tag []

def betweenOrEqual : CDXLNode ℕ :=
  .scalarBoolExpr .edxlor
    [.scalarBoolExpr .edxland [.scalarCmp 5 10, .scalarCmp 1 20], .scalarCmp 3 30]

theorem betweenOrEqual_compiles :
    ∃ info, fourPartitions.createPartPruneInfoForOneLevel betweenOrEqual = .ok info ∧
      info.steps.map PartitionPruneStep.stepId = [0, 1, 2, 3, 4] ∧
      (∀ (k : ℕ) (step : PartitionPruneStep), info.steps[k]? = some step →
        ∀ source ∈ step.sources, source < k) ∧
      ∃ entry, info.entries[3]? = some entry ∧ entry.subplan = 1 := by
  have usable : betweenOrEqual.Usable fourPartitions := by
    simp [betweenOrEqual, CDXLNode.Usable, UsableAll, fourPartitions]
  obtain ⟨info, created⟩ := (prune_steps_compile_filter fourPartitions betweenOrEqual).1.mpr usable
  obtain ⟨ids, earlier, -, subplans⟩ :=
    (prune_steps_compile_filter fourPartitions betweenOrEqual).2 info created
  have five : info.steps.length = 5 := by
    cases created
    rfl
  obtain ⟨entry, found, third, -⟩ := subplans (by decide) 3 (by decide)
  exact ⟨info, created, by rw [ids, five]; rfl, earlier, entry, found, third 1 rfl⟩

end Results
end PartPrune
