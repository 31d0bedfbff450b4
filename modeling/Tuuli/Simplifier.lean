import Tuuli.EdgeReplacement
import Tuuli.Enumerator

/-!
`CDPHyperOrderConstraints` and `CDPHyperGraphSimplifier`. Costs are the values
of a type with the comparisons and the division of the source's `DOUBLE`; the
entry that a priority queue has on top is any of those with the largest benefit.
-/
namespace DPHyper

structure CDPHyperOrderConstraints where
  reachable : List CBitSet

namespace CDPHyperOrderConstraints

def init (edgeCount : ℕ) : CDPHyperOrderConstraints :=
  ⟨(List.range edgeCount).map (fun edge => {edge})⟩

def reachableFrom (order : CDPHyperOrderConstraints) (edge : ℕ) : CBitSet :=
  (order.reachable[edge]?).getD ∅

def wouldCreateCycle (order : CDPHyperOrderConstraints) (before after : ℕ) : Bool :=
  before ∈ order.reachableFrom after

def tryAdd (order : CDPHyperOrderConstraints) (before after : ℕ) :
    CDPHyperOrderConstraints × Bool :=
  if order.wouldCreateCycle before after then (order, false)
  else if after ∈ order.reachableFrom before then (order, true)
  else
    (⟨order.reachable.map (fun set =>
      if before ∈ set then set ∪ order.reachableFrom after else set)⟩, true)

end CDPHyperOrderConstraints

structure Doubles (δ : Type) where
  lt : δ → δ → Bool
  le : δ → δ → Bool
  zero : δ
  largest : δ
  div : δ → δ → δ

structure SEdgeChange where
  edge : ℕ
  oldLeft : CBitSet
  oldRight : CBitSet
  newLeft : CBitSet
  newRight : CBitSet

structure SSimplificationStep (δ : Type) where
  benefit : δ
  before : ℕ
  after : ℕ
  change : SEdgeChange

structure SBestSimplification (δ : Type) where
  bestNeighbor : Option ℕ
  step : Option (SSimplificationStep δ)
  inQueue : Bool

structure SimplifierSettings (δ : Type) where
  doubles : Doubles δ
  pairBudget : ℕ
  pairFilter : PairFilter
  edgeFilter : ℕ → Bool
  joinCost : CBitSet → CBitSet → Option δ
  top : List (ℕ × δ) → Option ℕ
  top_isSome : ∀ entries, entries ≠ [] → (top entries).isSome
  top_largest : ∀ entries edge, top entries = some edge → ∃ benefit, (edge, benefit) ∈ entries ∧
    ∀ other ∈ entries, doubles.lt benefit other.2 = false

/-- The queue holds the edges whose entry of `best` is in it. -/
structure CDPHyperGraphSimplifier (δ : Type) where
  graph : CDPHyperGraph
  order : CDPHyperOrderConstraints
  best : List (SBestSimplification δ)
  queue : List ℕ
  applied : List (SSimplificationStep δ)
  unapplied : List (SSimplificationStep δ)

namespace CDPHyperGraph

def edgeAt (graph : CDPHyperGraph) (edge : ℕ) : SEdge :=
  (graph.edges[edge * 2]?).getD ⟨∅, ∅, 0⟩

def pbsUsedNodes (graph : CDPHyperGraph) (edge : ℕ) : CBitSet :=
  (graph.edgeAt edge).left ∪ (graph.edgeAt edge).right

def pchange (graph : CDPHyperGraph) (edge : ℕ) (newLeft newRight : CBitSet) : SEdgeChange :=
  ⟨edge, (graph.edgeAt edge).left, (graph.edgeAt edge).right, newLeft, newRight⟩

end CDPHyperGraph

def tryGetSuperset (left right : CBitSet) : Option CBitSet :=
  if left ⊆ right then some right else if right ⊆ left then some left else none

section Steps
variable {δ : Type} (settings : SimplifierSettings δ)

def threeLeftJoin (graph : CDPHyperGraph) (set1 : CBitSet) (edge1 : ℕ) (set2 : CBitSet) (edge2 : ℕ)
    (set3 : CBitSet) : Option (SSimplificationStep δ) :=
  let newLeft := set1 ∪ set2
  if ¬ Disjoint set1 set2 ∨ ¬ Disjoint newLeft set3 then none
  else
    match settings.joinCost set1 set2 with
    | none => none
    | some _ =>
      match settings.joinCost newLeft set3 with
      | none => none
      | some totalCost => some ⟨totalCost, edge1, edge2, graph.pchange edge2 newLeft set3⟩

def threeRightJoin (graph : CDPHyperGraph) (set1 : CBitSet) (edge1 : ℕ) (set2 : CBitSet) (edge2 : ℕ)
    (set3 : CBitSet) : Option (SSimplificationStep δ) :=
  let newRight := set2 ∪ set3
  if ¬ Disjoint set2 set3 ∨ ¬ Disjoint set1 newRight then none
  else
    match settings.joinCost set2 set3 with
    | none => none
    | some _ =>
      match settings.joinCost set1 newRight with
      | none => none
      | some totalCost => some ⟨totalCost, edge2, edge1, graph.pchange edge1 set1 newRight⟩

def orderJoin (edge1Before2 edge2Before1 : SSimplificationStep δ) : SSimplificationStep δ :=
  let doubles := settings.doubles
  let cost1 := edge1Before2.benefit
  let cost2 := edge2Before1.benefit
  let selected := if doubles.lt cost1 cost2 then edge1Before2 else edge2Before1
  let lower := if doubles.lt cost2 cost1 then cost2 else cost1
  let higher := if doubles.lt cost1 cost2 then cost2 else cost1
  { selected with
    benefit := if doubles.lt doubles.zero lower then doubles.div higher lower
      else doubles.largest }

def twoOrders (graph : CDPHyperGraph) (edge1 edge2 : ℕ) :
    Option (SSimplificationStep δ) × Option (SSimplificationStep δ) :=
  let left1 := (graph.edgeAt edge1).left
  let right1 := (graph.edgeAt edge1).right
  let left2 := (graph.edgeAt edge2).left
  let right2 := (graph.edgeAt edge2).right
  match tryGetSuperset left1 left2, decide (Disjoint right1 right2) with
  | some common, true =>
    (threeLeftJoin settings graph common edge1 right1 edge2 right2,
      threeLeftJoin settings graph common edge2 right2 edge1 right1)
  | _, _ =>
    match tryGetSuperset left1 right2, decide (Disjoint left2 right1) with
    | some common, true =>
      (threeRightJoin settings graph left2 edge2 common edge1 right1,
        threeLeftJoin settings graph left2 edge2 common edge1 right1)
    | _, _ =>
      match tryGetSuperset right1 left2, decide (Disjoint left1 right2) with
      | some common, true =>
        (threeLeftJoin settings graph left1 edge1 common edge2 right2,
          threeRightJoin settings graph left1 edge1 common edge2 right2)
      | _, _ =>
        match tryGetSuperset right1 right2, decide (Disjoint left1 left2) with
        | some common, true =>
          (threeRightJoin settings graph left2 edge2 left1 edge1 common,
            threeRightJoin settings graph left1 edge1 left2 edge2 common)
        | _, _ => (none, none)

def makeStep (graph : CDPHyperGraph) (order : CDPHyperOrderConstraints) (edge1 edge2 : ℕ) :
    Option (SSimplificationStep δ) :=
  let used1 := graph.pbsUsedNodes edge1
  let used2 := graph.pbsUsedNodes edge2
  if used1 ⊆ used2 ∨ used2 ⊆ used1 ∨ order.wouldCreateCycle edge1 edge2 ∨
      order.wouldCreateCycle edge2 edge1 ∨
      ¬ settings.edgeFilter (graph.edgeAt edge1).edgeId ∨
      ¬ settings.edgeFilter (graph.edgeAt edge2).edgeId then none
  else
    match twoOrders settings graph edge1 edge2 with
    | (some first, some second) => some (orderJoin settings first second)
    | _ => none

end Steps

namespace CDPHyperGraphSimplifier
variable {δ : Type} (settings : SimplifierSettings δ)

def bestAt (s : CDPHyperGraphSimplifier δ) (edge : ℕ) : SBestSimplification δ :=
  (s.best[edge]?).getD ⟨none, none, false⟩

def setBest (s : CDPHyperGraphSimplifier δ) (edge : ℕ) (entry : SBestSimplification δ) :
    CDPHyperGraphSimplifier δ :=
  { s with best := s.best.set edge entry }

def updateQueue (s : CDPHyperGraphSimplifier δ) (edge : ℕ) : CDPHyperGraphSimplifier δ :=
  let entry := s.bestAt edge
  if entry.inQueue = false then
    match entry.bestNeighbor with
    | none => s
    | some _ => { s.setBest edge { entry with inQueue := true } with queue := s.queue ++ [edge] }
  else
    let others := s.queue.filter (· ≠ edge)
    match entry.bestNeighbor with
    | none => { s.setBest edge { entry with inQueue := false } with queue := others }
    | some _ => { s with queue := others ++ [edge] }

def improves (entry : SBestSimplification δ) (step : SSimplificationStep δ) : Bool :=
  match entry.step with
  | some old => settings.doubles.le old.benefit step.benefit
  | none => true

def trySetStep (s : CDPHyperGraphSimplifier δ) (step : SSimplificationStep δ) (edge neighbor : ℕ) :
    CDPHyperGraphSimplifier δ × Bool :=
  let entry := s.bestAt edge
  if entry.bestNeighbor = none ∨ entry.inQueue = false ∨ improves settings entry step = true then
    ((s.setBest edge { entry with bestNeighbor := some neighbor, step := some step }).updateQueue
      edge, true)
  else (s, false)

def edgeCount (s : CDPHyperGraphSimplifier δ) : ℕ := s.graph.logicalEdgeCount

def between (first last : ℕ) : List ℕ := (List.range last).filter (first ≤ ·)

def tryPair (s : CDPHyperGraphSimplifier δ) (edge1 edge2 edge neighbor : ℕ) :
    CDPHyperGraphSimplifier δ × Bool :=
  match makeStep settings s.graph s.order edge1 edge2 with
  | some step => s.trySetStep settings step edge neighbor
  | none => (s, false)

/-- The second loop of `ProcessNeighbors`: the best step of `edge1` with a later edge. -/
def searchLater (s : CDPHyperGraphSimplifier δ) (edge1 first last : ℕ) :
    CDPHyperGraphSimplifier δ :=
  let reset := s.setBest edge1 { s.bestAt edge1 with bestNeighbor := none }
  let searched := (between (max first (edge1 + 1)) last).foldl
    (fun s edge2 => (s.tryPair settings edge1 edge2 edge1 edge2).1) reset
  searched.updateQueue edge1

def processNeighbors : ℕ → CDPHyperGraphSimplifier δ → ℕ → ℕ → ℕ → CDPHyperGraphSimplifier δ
  | 0, s, _, _, _ => s
  | fuel + 1, s, edge1, first, last =>
    let visited := (between first (min last edge1)).foldl (fun s edge2 =>
      let attempt := s.tryPair settings edge1 edge2 edge2 edge1
      if attempt.2 then attempt.1
      else if (attempt.1.bestAt edge2).bestNeighbor = some edge1 then
        processNeighbors fuel attempt.1 edge2 (edge2 + 1) attempt.1.edgeCount
      else attempt.1) s
    searchLater settings visited edge1 first last

def queueEntries (s : CDPHyperGraphSimplifier δ) : List (ℕ × δ) :=
  s.queue.map (fun edge => (edge, match (s.bestAt edge).step with
    | some step => step.benefit
    | none => settings.doubles.zero))

def popQueue (s : CDPHyperGraphSimplifier δ) :
    Option (SBestSimplification δ × CDPHyperGraphSimplifier δ) :=
  match settings.top (s.queueEntries settings) with
  | none => none
  | some edge =>
    let popped := s.setBest edge { s.bestAt edge with inQueue := false }
    some (s.bestAt edge, { popped with queue := s.queue.filter (· ≠ edge) })

def fetchQueued : ℕ → CDPHyperGraphSimplifier δ →
    Option (SSimplificationStep δ) × CDPHyperGraphSimplifier δ
  | 0, s => (none, s)
  | fuel + 1, s =>
    match s.popQueue settings with
    | none => (none, s)
    | some (entry, rest) =>
      match entry.bestNeighbor, entry.step with
      | some _, some step =>
        let added := rest.order.tryAdd step.before step.after
        if added.2 then (some step, { rest with order := added.1 })
        else fetchQueued fuel
          (processNeighbors settings 2 rest step.after 0 rest.edgeCount)
      | _, _ => fetchQueued fuel rest

def fetchStep (s : CDPHyperGraphSimplifier δ) :
    Option (SSimplificationStep δ) × CDPHyperGraphSimplifier δ :=
  match s.unapplied with
  | step :: rest => (some step, { s with unapplied := rest })
  | [] => fetchQueued settings (s.queue.length + 1) s

def modifyEdge (s : CDPHyperGraphSimplifier δ) (step : SSimplificationStep δ) (apply : Bool) :
    CDPHyperGraphSimplifier δ :=
  let change := step.change
  { s with
    graph := s.graph.replaceEdge change.edge
      (if apply then change.newLeft else change.oldLeft)
      (if apply then change.newRight else change.oldRight) }

def applyStep (s : CDPHyperGraphSimplifier δ) : CDPHyperGraphSimplifier δ × Bool :=
  let fresh := s.unapplied.isEmpty
  match s.fetchStep settings with
  | (none, fetched) => (fetched, false)
  | (some step, fetched) =>
    let modified := fetched.modifyEdge step true
    let pushed := { modified with applied := step :: modified.applied }
    (if fresh then processNeighbors settings 2 pushed step.after 0 pushed.edgeCount
      else pushed, true)

def unapplyStep (s : CDPHyperGraphSimplifier δ) : CDPHyperGraphSimplifier δ :=
  match s.applied with
  | [] => s
  | step :: rest =>
    let popped := { s with applied := rest }
    let restored := popped.modifyEdge step false
    { restored with unapplied := step :: restored.unapplied }

/-- The first loop of `ApplySteps`, for `missing` more steps. -/
def applyMore : ℕ → CDPHyperGraphSimplifier δ → CDPHyperGraphSimplifier δ × Bool
  | 0, s => (s, true)
  | missing + 1, s =>
    let next := s.applyStep settings
    if next.2 then applyMore missing next.1 else (next.1, false)

/-- The second loop of `ApplySteps`, for `extra` steps too many. -/
def unapplyMore : ℕ → CDPHyperGraphSimplifier δ → CDPHyperGraphSimplifier δ
  | 0, s => s
  | extra + 1, s => unapplyMore extra s.unapplyStep

def applySteps (s : CDPHyperGraphSimplifier δ) (count : ℕ) : CDPHyperGraphSimplifier δ × Bool :=
  let raised := applyMore settings (count - s.applied.length) s
  if raised.2 then (unapplyMore (raised.1.applied.length - count) raised.1, true)
  else raised

def enumerationExceedsBudget (s : CDPHyperGraphSimplifier δ) : Bool :=
  let probe := enumerate s.graph (.empty (some settings.pairBudget) settings.pairFilter)
  probe.2 || !probe.1.complete s.graph.nodeCount

/-- The binary search between `lower` and `upper`; the distance shrinks in each round. -/
def bisect : ℕ → CDPHyperGraphSimplifier δ → ℕ → ℕ → CDPHyperGraphSimplifier δ × ℕ
  | 0, s, _, upper => (s, upper)
  | fuel + 1, s, lower, upper =>
    if lower < upper then
      let middle := lower + (upper - lower) / 2
      let probed := s.applySteps settings middle
      if probed.2 = false then bisect fuel probed.1 (middle + 1) upper
      else if probed.1.enumerationExceedsBudget settings = false then
        bisect fuel probed.1 lower middle
      else bisect fuel probed.1 (middle + 1) upper
    else (s, upper)

/-- What `Simplify` does once the doubling has stopped at `applied` steps. -/
def chooseCount (s : CDPHyperGraphSimplifier δ) (applied : ℕ) : CDPHyperGraphSimplifier δ × Bool :=
  let searched := bisect settings (applied + 1) s 0 (applied + 1)
  let chosen := searched.1.applySteps settings searched.2
  if chosen.2 then (chosen.1, decide (0 < chosen.1.applied.length))
  else ((chosen.1.applySteps settings 0).1, false)

/-- The doubling of `Simplify`, from `applied` steps to `upper`; `none` when the rounds do not
suffice. -/
def double : ℕ → CDPHyperGraphSimplifier δ → ℕ → ℕ → Option (CDPHyperGraphSimplifier δ × Bool)
  | 0, _, _, _ => none
  | rounds + 1, s, applied, upper =>
    let raised := applyMore settings (upper - applied) s
    let reached := applied + (raised.1.applied.length - s.applied.length)
    if raised.2 = false then
      if raised.1.enumerationExceedsBudget settings then
        some ((raised.1.applySteps settings 0).1, false)
      else some (raised.1.chooseCount settings reached)
    else if raised.1.enumerationExceedsBudget settings = false then
      some (raised.1.chooseCount settings reached)
    else double rounds raised.1 reached (upper * 2)

def simplify (rounds : ℕ) (s : CDPHyperGraphSimplifier δ) :
    Option (CDPHyperGraphSimplifier δ × Bool) :=
  double settings rounds s 0 1

def extractJoinDependencies (graph : CDPHyperGraph) : CDPHyperOrderConstraints :=
  let count := graph.logicalEdgeCount
  (List.range count).foldl (fun order edge1 =>
    (between (edge1 + 1) count).foldl (fun order edge2 =>
      if graph.pbsUsedNodes edge1 ⊆ graph.pbsUsedNodes edge2 then (order.tryAdd edge1 edge2).1
      else if graph.pbsUsedNodes edge2 ⊆ graph.pbsUsedNodes edge1 then
        (order.tryAdd edge2 edge1).1
      else order) order) (.init count)

def init (graph : CDPHyperGraph) : CDPHyperGraphSimplifier δ :=
  let count := graph.logicalEdgeCount
  let start : CDPHyperGraphSimplifier δ :=
    ⟨graph, extractJoinDependencies graph, List.replicate count ⟨none, none, false⟩, [], [], []⟩
  (List.range count).foldl (fun s edge => processNeighbors settings 2 s edge (edge + 1) count) start

end CDPHyperGraphSimplifier

end DPHyper
