import Tuuli.RelationClosure
import Tuuli.StepMoves

/-!
The order constraints after any calls of `TryAdd`. The rows are the closure of the
accepted pairs, although the loop of `TryAdd` reads a row of the table it writes.
-/
namespace DPHyper
open Relation RelationClosure

namespace CDPHyperOrderConstraints

variable {order : CDPHyperOrderConstraints} {count before after : ℕ}

section Loop

def rowAt (rows : List CBitSet) (edge : ℕ) : CBitSet := (rows[edge]?).getD ∅

/-- One round of the loop of `TryAdd`: the row of `after` is read as it is by then. -/
def unionRow (before after : ℕ) (rows : List CBitSet) (edge : ℕ) : List CBitSet :=
  if before ∈ rowAt rows edge then rows.set edge (rowAt rows edge ∪ rowAt rows after) else rows

/-- `TryAdd` with the loop that changes the rows in place. -/
def tryAddInPlace (order : CDPHyperOrderConstraints) (before after : ℕ) :
    CDPHyperOrderConstraints × Bool :=
  if order.wouldCreateCycle before after then (order, false)
  else if after ∈ order.reachableFrom before then (order, true)
  else
    (⟨(List.range order.reachable.length).foldl (unionRow before after) order.reachable⟩, true)

/-- The rows after the first `rounds` rounds, as the old table gives them. -/
def unitedUpTo (before after rounds : ℕ) (rows : List CBitSet) : List CBitSet :=
  rows.mapIdx (fun edge row =>
    if edge < rounds ∧ before ∈ row then row ∪ rowAt rows after else row)

variable {rounds : ℕ} {rows : List CBitSet}

theorem rowAt_unitedUpTo {edge : ℕ} (bound : edge < rows.length) :
    rowAt (unitedUpTo before after rounds rows) edge
      = if edge < rounds ∧ before ∈ rowAt rows edge then rowAt rows edge ∪ rowAt rows after
        else rowAt rows edge := by
  simp [rowAt, unitedUpTo, bound]

variable (free : before ∉ rowAt rows after)

include free

theorem rowAt_unitedUpTo_after :
    rowAt (unitedUpTo before after rounds rows) after = rowAt rows after := by
  by_cases bound : after < rows.length
  · rw [rowAt_unitedUpTo bound, if_neg (fun both => free both.2)]
  · simp [rowAt, unitedUpTo, bound]

theorem unionRow_unitedUpTo (bound : rounds < rows.length) :
    unionRow before after (unitedUpTo before after rounds rows) rounds
      = unitedUpTo before after (rounds + 1) rows := by
  have here : rowAt (unitedUpTo before after rounds rows) rounds = rowAt rows rounds := by
    rw [rowAt_unitedUpTo bound, if_neg (fun both => Nat.lt_irrefl _ both.1)]
  unfold unionRow
  have same : rowAt rows rounds = rows[rounds] := by simp [rowAt, bound]
  rw [here, rowAt_unitedUpTo_after free, same]
  refine List.ext_getElem ?_ ?_
  · split <;> simp [unitedUpTo]
  intro edge boundLeft boundRight
  have inside : edge < rows.length := by simpa [unitedUpTo] using boundRight
  by_cases isRow : edge = rounds
  · subst isRow
    by_cases reaches : before ∈ rows[edge]
    · simp [reaches, unitedUpTo]
    · simp [reaches, unitedUpTo]
  · have earlier : edge < rounds + 1 ↔ edge < rounds := by omega
    split
    · simp only [unitedUpTo, ne_eq, Ne.symm isRow, not_false_eq_true, List.getElem_set_ne,
        List.getElem_mapIdx, earlier]
    · simp only [unitedUpTo, List.getElem_mapIdx, earlier]

theorem foldl_unionRow (bound : rounds ≤ rows.length) :
    (List.range rounds).foldl (unionRow before after) rows
      = unitedUpTo before after rounds rows := by
  induction rounds with
  | zero =>
    refine List.ext_getElem (by simp [unitedUpTo]) ?_
    intro edge _ _
    simp [unitedUpTo]
  | succ rounds ih =>
    rw [List.range_succ, List.foldl_append, ih (Nat.le_of_succ_le bound)]
    exact unionRow_unitedUpTo free bound

omit free

theorem tryAddInPlace_eq : order.tryAddInPlace before after = order.tryAdd before after := by
  unfold tryAddInPlace tryAdd
  split
  · rfl
  · rename_i free
    have apart : before ∉ order.reachableFrom after := by
      simpa [wouldCreateCycle] using free
    split
    · rfl
    · rw [foldl_unionRow apart (Nat.le_refl _)]
      congr 2
      refine List.ext_getElem (by simp [unitedUpTo]) ?_
      intro edge boundLeft boundRight
      have inside : edge < order.reachable.length := by simpa using boundRight
      simp [unitedUpTo, inside, rowAt, reachableFrom]

end Loop

section Calls

def addNext (state : CDPHyperOrderConstraints × List (ℕ × ℕ)) (call : ℕ × ℕ) :
    CDPHyperOrderConstraints × List (ℕ × ℕ) :=
  let added := state.1.tryAddInPlace call.1 call.2
  (added.1, if added.2 then call :: state.2 else state.2)

def addAll (edgeCount : ℕ) (calls : List (ℕ × ℕ)) : CDPHyperOrderConstraints × List (ℕ × ℕ) :=
  calls.foldl addNext (init edgeCount, [])

def AcceptedPair (accepted : List (ℕ × ℕ)) (before after : ℕ) : Prop := (before, after) ∈ accepted

structure Closes (order : CDPHyperOrderConstraints) (count : ℕ) (accepted : List (ℕ × ℕ)) :
    Prop where
  size : order.reachable.length = count
  closure : ∀ edge < count, ∀ other,
    other ∈ order.reachableFrom edge ↔ ReflTransGen (AcceptedPair accepted) edge other
  acyclic : Acyclic (AcceptedPair accepted)

variable {accepted : List (ℕ × ℕ)}

theorem accepted_nil_path {edge other : ℕ} :
    ReflTransGen (AcceptedPair []) edge other ↔ other = edge := by
  refine ReflTransGen.cases_head_iff.trans ⟨?_, fun same => .inl same.symm⟩
  rintro (same | ⟨_, impossible, _⟩)
  · exact same.symm
  · cases impossible

theorem closes_init : (init count).Closes count [] where
  size := by simp [init]
  closure := by
    intro edge bound other
    rw [accepted_nil_path]
    simp [init, reachableFrom, bound]
  acyclic := by
    intro edge cycle
    obtain ⟨_, impossible, _⟩ := TransGen.head'_iff.mp cycle
    cases impossible

theorem accepted_cons :
    AcceptedPair ((before, after) :: accepted) = Added (AcceptedPair accepted) before after := by
  funext edge other
  simp [AcceptedPair, Added, or_comm]

theorem Closes.refuses_iff (closes : order.Closes count accepted) (bound : after < count) :
    (order.tryAdd before after).2 = false ↔
      ¬ Acyclic (AcceptedPair ((before, after) :: accepted)) := by
  rw [tryAdd_snd, accepted_cons, closes.acyclic.added_iff, not_not, ← closes.closure after bound]
  simp [wouldCreateCycle]

theorem Closes.accept (closes : order.Closes count accepted) (boundBefore : before < count)
    (boundAfter : after < count) (success : (order.tryAdd before after).2 = true) :
    (order.tryAdd before after).1.Closes count ((before, after) :: accepted) := by
  have acyclic : Acyclic (AcceptedPair ((before, after) :: accepted)) := by
    by_contra cyclic
    rw [(closes.refuses_iff boundAfter).mpr cyclic] at success
    exact Bool.false_ne_true success
  have free : order.wouldCreateCycle before after = false := by
    simpa [tryAdd_snd] using success
  by_cases known : after ∈ order.reachableFrom before
  · rw [tryAdd_known free known]
    refine ⟨closes.size, fun edge bound other => ?_, acyclic⟩
    rw [accepted_cons, reflTransGen_added, closes.closure edge bound]
    constructor
    · exact fun path => .inl path
    · rintro (path | ⟨toward, onward⟩)
      · exact path
      · exact (toward.trans ((closes.closure before boundBefore after).mp known)).trans onward
  · refine ⟨?_, fun edge bound other => ?_, acyclic⟩
    · unfold CDPHyperOrderConstraints.tryAdd
      rw [if_neg (by simp [free]), if_neg known]
      simpa using closes.size
    · rw [reachableFrom_accept free known (closes.size.symm ▸ bound), accepted_cons,
        reflTransGen_added, ← closes.closure edge bound, ← closes.closure edge bound,
        ← closes.closure after boundAfter]
      split
      · rename_i reaches
        simp [reaches]
      · rename_i apart
        simp [apart]

theorem tryAdd_refused (refused : (order.tryAdd before after).2 = false) :
    (order.tryAdd before after).1 = order := by
  rw [tryAdd_snd] at refused
  unfold tryAdd
  rw [if_pos (by simpa using refused)]

theorem Closes.addNext (closes : order.Closes count accepted) (boundBefore : before < count)
    (boundAfter : after < count) :
    (addNext (order, accepted) (before, after)).1.Closes count
      (CDPHyperOrderConstraints.addNext (order, accepted) (before, after)).2 := by
  unfold CDPHyperOrderConstraints.addNext
  dsimp only
  rw [tryAddInPlace_eq]
  cases outcome : (order.tryAdd before after).2 with
  | true => exact closes.accept boundBefore boundAfter outcome
  | false =>
    rw [tryAdd_refused outcome]
    exact closes

theorem closes_addAll (calls : List (ℕ × ℕ))
    (bounds : ∀ call ∈ calls, call.1 < count ∧ call.2 < count) :
    (addAll count calls).1.Closes count (addAll count calls).2 := by
  have run : ∀ state : CDPHyperOrderConstraints × List (ℕ × ℕ), state.1.Closes count state.2 →
      (calls.foldl CDPHyperOrderConstraints.addNext state).1.Closes count
        (calls.foldl CDPHyperOrderConstraints.addNext state).2 := by
    induction calls with
    | nil => exact fun _ closes => closes
    | cons call rest ih =>
      intro state closes
      obtain ⟨boundBefore, boundAfter⟩ := bounds call List.mem_cons_self
      exact ih (fun later listed => bounds later (List.mem_cons_of_mem call listed)) _
        (closes.addNext boundBefore boundAfter)
  exact run (init count, []) closes_init

theorem addAll_accepts {precedes : ℕ → ℕ → Prop} (irrefl : ∀ edge, ¬ precedes edge edge)
    (trans : ∀ {first second third}, precedes first second → precedes second third → precedes
      first third) (calls : List (ℕ × ℕ)) (bounds : ∀ call ∈ calls, call.1 < count ∧ call.2 < count)
    (agree : ∀ call ∈ calls, precedes call.1 call.2) : (addAll count calls).2 = calls.reverse := by
  have acyclic : ∀ pairs : List (ℕ × ℕ), (∀ pair ∈ pairs, precedes pair.1 pair.2) →
      Acyclic (AcceptedPair pairs) := by
    intro pairs ordered edge cycle
    have path : ∀ {other}, TransGen (AcceptedPair pairs) edge other → precedes edge other := by
      intro other path
      induction path with
      | single step => exact ordered _ step
      | tail _ step ih => exact trans ih (ordered _ step)
    exact irrefl edge (path cycle)
  have run : ∀ state : CDPHyperOrderConstraints × List (ℕ × ℕ), state.1.Closes count state.2 →
      (∀ pair ∈ state.2, precedes pair.1 pair.2) →
      (calls.foldl CDPHyperOrderConstraints.addNext state).2 = calls.reverse ++ state.2 := by
    induction calls with
    | nil => exact fun _ _ _ => rfl
    | cons call rest ih =>
      intro state closes ordered
      obtain ⟨boundBefore, boundAfter⟩ := bounds call List.mem_cons_self
      have orderedNext : ∀ pair ∈ call :: state.2, precedes pair.1 pair.2 := by
        intro pair listed
        rcases List.mem_cons.mp listed with rfl | old
        · exact agree pair List.mem_cons_self
        · exact ordered pair old
      have success : (state.1.tryAdd call.1 call.2).2 = true := by
        rw [← Bool.not_eq_false, closes.refuses_iff boundAfter, not_not]
        exact acyclic _ orderedNext
      have next : CDPHyperOrderConstraints.addNext state call
          = ((state.1.tryAdd call.1 call.2).1, call :: state.2) := by
        simp [CDPHyperOrderConstraints.addNext, tryAddInPlace_eq, success]
      rw [List.foldl_cons, next,
        ih (fun later listed => bounds later (List.mem_cons_of_mem call listed))
          (fun later listed => agree later (List.mem_cons_of_mem call listed)) _
          (closes.accept boundBefore boundAfter success) orderedNext]
      simp
  have result := run (init count, []) closes_init (by simp)
  rwa [List.append_nil] at result

end Calls

end CDPHyperOrderConstraints

namespace CDPHyperGraphSimplifier
open CDPHyperOrderConstraints

variable {graph : CDPHyperGraph}

/-- The call of `TryAdd` that `ExtractJoinDependencies` makes for two edges. -/
def dependencyOf (graph : CDPHyperGraph) (edge1 edge2 : ℕ) : Option (ℕ × ℕ) :=
  if graph.pbsUsedNodes edge1 ⊆ graph.pbsUsedNodes edge2 then some (edge1, edge2)
  else if graph.pbsUsedNodes edge2 ⊆ graph.pbsUsedNodes edge1 then some (edge2, edge1)
  else none

def joinDependencies (graph : CDPHyperGraph) : List (ℕ × ℕ) :=
  (List.range graph.logicalEdgeCount).flatMap (fun edge1 =>
    (between (edge1 + 1) graph.logicalEdgeCount).filterMap (dependencyOf graph edge1))

def Precedes (graph : CDPHyperGraph) (edge1 edge2 : ℕ) : Prop :=
  graph.pbsUsedNodes edge1 ⊂ graph.pbsUsedNodes edge2 ∨
    (graph.pbsUsedNodes edge1 = graph.pbsUsedNodes edge2 ∧ edge1 < edge2)

variable {edge1 edge2 : ℕ} {call : ℕ × ℕ}

theorem precedes_irrefl (edge : ℕ) : ¬ Precedes graph edge edge := by
  rintro (smaller | ⟨_, less⟩)
  · exact smaller.ne rfl
  · exact Nat.lt_irrefl edge less

theorem precedes_trans {first second third : ℕ} (before : Precedes graph first second)
    (after : Precedes graph second third) : Precedes graph first third := by
  rcases before with smaller | ⟨same, less⟩ <;> rcases after with smaller' | ⟨same', less'⟩
  · exact .inl (smaller.trans smaller')
  · exact .inl (same' ▸ smaller)
  · exact .inl (same.symm ▸ smaller')
  · exact .inr ⟨same.trans same', less.trans less'⟩

theorem dependencyOf_precedes (later : edge1 < edge2)
    (found : dependencyOf graph edge1 edge2 = some call) : Precedes graph call.1 call.2 := by
  unfold dependencyOf at found
  split at found
  · rename_i inside
    obtain rfl := Option.some.inj found
    rcases inside.eq_or_ssubset with same | smaller
    · exact .inr ⟨same, later⟩
    · exact .inl smaller
  · rename_i outside
    split at found
    · rename_i inside
      obtain rfl := Option.some.inj found
      exact .inl ⟨inside, outside⟩
    · cases found

theorem mem_joinDependencies (listed : call ∈ joinDependencies graph) :
    ∃ edge1 edge2, edge1 < edge2 ∧ edge2 < graph.logicalEdgeCount ∧
      dependencyOf graph edge1 edge2 = some call := by
  simp only [joinDependencies, List.mem_flatMap, List.mem_filterMap, mem_between] at listed
  obtain ⟨edge1, -, edge2, ⟨later, bound⟩, found⟩ := listed
  exact ⟨edge1, edge2, later, bound, found⟩

theorem dependencyOf_ends (found : dependencyOf graph edge1 edge2 = some call) :
    call = (edge1, edge2) ∨ call = (edge2, edge1) := by
  unfold dependencyOf at found
  split at found
  · exact .inl (Option.some.inj found).symm
  · split at found
    · exact .inr (Option.some.inj found).symm
    · cases found

theorem joinDependencies_bounds (listed : call ∈ joinDependencies graph) :
    call.1 < graph.logicalEdgeCount ∧ call.2 < graph.logicalEdgeCount := by
  obtain ⟨edge1, edge2, later, bound, found⟩ := mem_joinDependencies listed
  rcases dependencyOf_ends found with rfl | rfl <;> constructor <;> dsimp only <;> omega

theorem extractJoinDependencies_eq :
    extractJoinDependencies graph = (addAll graph.logicalEdgeCount (joinDependencies graph)).1 := by
  have project : ∀ (calls : List (ℕ × ℕ)) state,
      (calls.foldl addNext state).1
        = calls.foldl (fun order call => (order.tryAdd call.1 call.2).1) state.1 := by
    intro calls
    induction calls with
    | nil => exact fun _ => rfl
    | cons call rest ih =>
      intro state
      rw [List.foldl_cons, ih, List.foldl_cons, addNext, tryAddInPlace_eq]
  unfold extractJoinDependencies addAll joinDependencies
  rw [project, List.foldl_flatMap]
  dsimp only
  congr 1
  funext order edge1
  rw [List.foldl_filterMap]
  congr 1
  funext inner edge2
  unfold dependencyOf
  split
  · rfl
  · split <;> rfl

theorem joinDependencies_accepted :
    (addAll graph.logicalEdgeCount (joinDependencies graph)).2
      = (joinDependencies graph).reverse := by
  refine @addAll_accepts _ (Precedes graph) precedes_irrefl precedes_trans _
    (fun call listed => joinDependencies_bounds listed) (fun call listed => ?_)
  obtain ⟨edge1, edge2, later, -, found⟩ := mem_joinDependencies listed
  exact dependencyOf_precedes later found

/-- After any calls the rows are the closure of the accepted pairs and antisymmetric, a pair is
refused exactly when it would close a cycle, and the dependencies extracted from a graph are all
accepted. -/
theorem order_constraints_are_closure :
    (∀ (edgeCount : ℕ) (calls : List (Fin edgeCount × Fin edgeCount)),
      let run := addAll edgeCount (calls.map fun call => (call.1.val, call.2.val))
      (∀ (edge : Fin edgeCount) (other : ℕ), other ∈ run.1.reachableFrom edge ↔
        ReflTransGen (AcceptedPair run.2) edge other) ∧
      (∀ edge other : Fin edgeCount, other.val ∈ run.1.reachableFrom edge →
        edge.val ∈ run.1.reachableFrom other → edge = other) ∧
      ∀ before after : Fin edgeCount,
        ((run.1.tryAddInPlace before after).2 = false ↔
          ¬ Acyclic (AcceptedPair ((before.val, after.val) :: run.2))) ∧
        ((run.1.tryAddInPlace before after).2 = false →
          (run.1.tryAddInPlace before after).1 = run.1)) ∧
    ∀ graph : CDPHyperGraph,
      extractJoinDependencies graph = (addAll graph.logicalEdgeCount (joinDependencies graph)).1 ∧
      (addAll graph.logicalEdgeCount (joinDependencies graph)).2
        = (joinDependencies graph).reverse := by
  refine ⟨fun edgeCount calls => ?_, fun graph =>
    ⟨extractJoinDependencies_eq, joinDependencies_accepted⟩⟩
  intro run
  have closes : run.1.Closes edgeCount run.2 := by
    apply closes_addAll
    intro call listed
    obtain ⟨pair, -, rfl⟩ := List.mem_map.mp listed
    exact ⟨pair.1.isLt, pair.2.isLt⟩
  refine ⟨fun edge other => closes.closure edge edge.isLt other, ?_, ?_⟩
  · intro edge other first second
    rw [closes.closure edge edge.isLt] at first
    rw [closes.closure other other.isLt] at second
    exact Fin.ext (closes.acyclic.antisymm first second)
  · intro before after
    rw [tryAddInPlace_eq]
    exact ⟨closes.refuses_iff after.isLt, tryAdd_refused⟩

end CDPHyperGraphSimplifier
end DPHyper
