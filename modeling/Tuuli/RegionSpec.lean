import Mathlib.Algebra.GroupWithZero.Nat
import Mathlib.Data.Finset.Card
import Mathlib.Data.Finset.Union
import Tuuli.BagJoins

/-!
`CJoinRegionSpec`: the atoms of a binary join tree, its join operators in
post-order, and the eligibility sets and conflict rules the CD-C conflict
detector derives for them. The scalar test `CPredicateUtils::FNullRejecting`
is a parameter; column sets and node sets are finite sets of numbers.
-/
namespace JoinRegion
open BagJoins

abbrev CBitSet := Finset ℕ

abbrev CColRefSet := Finset ℕ

/-- The operators accepted by `FSupportedBinaryJoin`. -/
inductive EOperatorId where
  | innerJoin
  | leftOuterJoin
  | leftSemiJoin
  | leftAntiSemiJoin
  | leftAntiSemiJoinNotIn
  | fullOuterJoin
  | rightOuterJoin
  deriving DecidableEq, Repr

def fCDCSupportedJoin (op : EOperatorId) : Bool :=
  op ≠ .rightOuterJoin

def fInnerJoin (op : EOperatorId) : Bool :=
  op = .innerJoin

structure CConjunct (V : Type) where
  usedColumns : CColRefSet
  value : Row ℕ V → Option Bool
  reads : Reads (usedColumns : Set ℕ) value

/-- Conjunction of truth values, with `none` for UNKNOWN. -/
def and3 : Option Bool → Option Bool → Option Bool
  | some false, _ => some false
  | _, some false => some false
  | some true, b => b
  | none, _ => none

structure CPredicate (V : Type) where
  conjuncts : List (CConjunct V)

def CPredicate.usedColumns (predicate : CPredicate V) : CColRefSet :=
  predicate.conjuncts.foldr (fun conjunct columns => conjunct.usedColumns ∪ columns) ∅

def CPredicate.value (predicate : CPredicate V) (row : Row ℕ V) : Option Bool :=
  predicate.conjuncts.foldr (fun conjunct truth => and3 (conjunct.value row) truth) (some true)

theorem CPredicate.reads (predicate : CPredicate V) :
    Reads (predicate.usedColumns : Set ℕ) predicate.value := by
  intro r s agree
  obtain ⟨conjuncts⟩ := predicate
  simp only [usedColumns, value] at *
  induction conjuncts with
  | nil => rfl
  | cons conjunct rest ih =>
    simp only [List.foldr_cons, Finset.coe_union] at agree ⊢
    rw [ih (fun c hc => agree c (.inr hc)), conjunct.reads r s (fun c hc => agree c (.inl hc))]

structure CAtom where
  outputColumns : CColRefSet
  outerReferences : CColRefSet

/-- A logical expression seen as a join tree: what is not a supported ternary join is an atom. -/
inductive CExpression (V : Type) where
  | atom : CAtom → CExpression V
  | join : EOperatorId → CExpression V → CExpression V → CPredicate V →
      Option (CPredicate V) → CExpression V

structure CConflictRule where
  activate : CBitSet
  required : CBitSet
  deriving DecidableEq

structure CEdge (V : Type) where
  joinType : EOperatorId
  left : CBitSet
  right : CBitSet
  predicate : CPredicate V
  notinComparison : Option (CPredicate V)
  ses : CBitSet
  tes : CBitSet
  conflictRules : List CConflictRule

def CEdge.all (edge : CEdge V) : CBitSet :=
  edge.left ∪ edge.right

/-- The rule is not triggered by `nodes`, or `nodes` has what it requires. -/
def CConflictRule.satisfied (rule : CConflictRule) (nodes : CBitSet) : Bool :=
  Disjoint nodes rule.activate ∨ rule.required ⊆ nodes

def CEdge.fApplicable (edge : CEdge V) (left right : CBitSet) : Bool :=
  if ¬ Disjoint left right then false
  else if ¬ edge.tes ⊆ left ∪ right ∨ Disjoint edge.tes left ∨ Disjoint edge.tes right then false
  else if edge.conflictRules.any (fun rule => !rule.satisfied (left ∪ right)) then false
  else if edge.joinType = .innerJoin then true
  else decide (∀ node ∈ edge.tes,
    ¬ ((node ∈ edge.left ∧ node ∉ left) ∨ (node ∈ edge.right ∧ node ∉ right)))

structure CJoinRegionSpec (V : Type) where
  atoms : List CAtom
  edges : List (CEdge V)
  dependencies : List CBitSet
  pureInner : Bool
  cdcSupported : Bool
  externalDependencies : Bool
  dependencyCount : ℕ

def CJoinRegionSpec.empty : CJoinRegionSpec V :=
  ⟨[], [], [], true, true, false, 0⟩

def CJoinRegionSpec.nodeCount (spec : CJoinRegionSpec V) : ℕ := spec.atoms.length

def CJoinRegionSpec.edgeCount (spec : CJoinRegionSpec V) : ℕ := spec.edges.length

def CJoinRegionSpec.hasDependencies (spec : CJoinRegionSpec V) : Bool :=
  0 < spec.dependencyCount

def outputColumns (atoms : List CAtom) (node : ℕ) : CColRefSet :=
  match atoms[node]? with
  | some atom => atom.outputColumns
  | none => ∅

def pbsPredicateCover (atoms : List CAtom) (predicate : CPredicate V) : CBitSet :=
  (Finset.range atoms.length).filter
    (fun node => ¬ Disjoint predicate.usedColumns (outputColumns atoms node))

def pcrsNodes (atoms : List CAtom) (nodes : CBitSet) : CColRefSet :=
  nodes.biUnion (outputColumns atoms)

section Eligibility
variable (nullRejecting : CPredicate V → CColRefSet → Bool) (atoms : List CAtom)

def fNullRejecting (edge : CEdge V) (nodes : CBitSet) : Bool :=
  nullRejecting edge.predicate (pcrsNodes atoms nodes)

def fAssociative (left right : CEdge V) : Bool :=
  if (left.joinType = .leftOuterJoin ∨ left.joinType = .fullOuterJoin) ∧
      right.joinType = .leftOuterJoin then
    fNullRejecting nullRejecting atoms right right.left
  else if left.joinType = .fullOuterJoin ∧ right.joinType = .fullOuterJoin then
    fNullRejecting nullRejecting atoms left left.right &&
      fNullRejecting nullRejecting atoms right right.left
  else fInnerJoin left.joinType && right.joinType != .fullOuterJoin

def fLeftAsscom (left right : CEdge V) : Bool :=
  if left.joinType = .leftOuterJoin then
    right.joinType != .fullOuterJoin || fNullRejecting nullRejecting atoms left left.left
  else if left.joinType = .fullOuterJoin then
    if right.joinType = .leftOuterJoin then
      fNullRejecting nullRejecting atoms right right.right
    else if right.joinType = .fullOuterJoin then
      fNullRejecting nullRejecting atoms left left.left &&
        fNullRejecting nullRejecting atoms right right.left
    else false
  else right.joinType != .fullOuterJoin

def fRightAsscom (left right : CEdge V) : Bool :=
  if left.joinType = .fullOuterJoin ∧ right.joinType = .fullOuterJoin then
    fNullRejecting nullRejecting atoms left left.right &&
      fNullRejecting nullRejecting atoms right right.right
  else fInnerJoin left.joinType && fInnerJoin right.joinType

def pbsIntersectIfNotDegenerate (used available : CBitSet) : CBitSet :=
  if (used ∩ available).card = 0 then available else used ∩ available

/-- The rules `BuildEligibility` adds to `edge` for the earlier edge `child`. -/
def conflictRulesFor (edge child : CEdge V) : List CConflictRule :=
  if child.all ⊆ edge.left then
    (if fAssociative nullRejecting atoms child edge then []
      else [⟨child.right, pbsIntersectIfNotDegenerate child.ses child.left⟩]) ++
    (if fLeftAsscom nullRejecting atoms child edge then []
      else [⟨child.left, pbsIntersectIfNotDegenerate child.ses child.right⟩])
  else if child.all ⊆ edge.right then
    (if fAssociative nullRejecting atoms edge child then []
      else [⟨child.left, pbsIntersectIfNotDegenerate child.ses child.right⟩]) ++
    (if fRightAsscom nullRejecting atoms edge child then []
      else [⟨child.right, pbsIntersectIfNotDegenerate child.ses child.left⟩])
  else []

def absorbRound (rules : List CConflictRule) (tes : CBitSet) : CBitSet :=
  rules.foldl (fun tes rule => if rule.satisfied tes then tes else tes ∪ rule.required) tes

/-- The rounds of `AbsorbConflictRules`; the source repeats them until one changes nothing. -/
def absorbRounds (rules : List CConflictRule) : ℕ → CBitSet → CBitSet
  | 0, tes => tes
  | fuel + 1, tes =>
    if absorbRound rules tes = tes then tes
    else absorbRounds rules fuel (absorbRound rules tes)

def absorbConflictRules (edge : CEdge V) : CEdge V :=
  let tes := absorbRounds edge.conflictRules edge.conflictRules.length edge.tes
  { edge with
    tes := tes
    conflictRules := edge.conflictRules.filter (fun rule => ¬ rule.required ⊆ tes) }

def touchSide (side : CBitSet) (edge : CEdge V) : CEdge V :=
  if Disjoint edge.tes side then absorbConflictRules { edge with tes := edge.tes ∪ side }
  else edge

/-- `earlier` are the edges before `edge` in the specification, with their eligibility built. -/
def buildEligibility (earlier : List (CEdge V)) (edge : CEdge V) : CEdge V :=
  let ses := pbsPredicateCover atoms edge.predicate
  let rules := earlier.flatMap (conflictRulesFor nullRejecting atoms edge)
  let absorbed := absorbConflictRules
    { edge with ses := ses, tes := ses, conflictRules := rules }
  touchSide edge.right (touchSide edge.left absorbed)

def buildEdges (edges : List (CEdge V)) : List (CEdge V) :=
  edges.foldl (fun built edge => built ++ [buildEligibility nullRejecting atoms built edge]) []

end Eligibility

def resolveProviders (atoms : List CAtom) (node : ℕ) :
    List ℕ → CColRefSet → CBitSet × CColRefSet
  | [], unresolved => (∅, unresolved)
  | provider :: rest, unresolved =>
    if unresolved = ∅ then (∅, unresolved)
    else if provider = node ∨ Disjoint unresolved (outputColumns atoms provider) then
      resolveProviders atoms node rest unresolved
    else
      let (dependencies, left) :=
        resolveProviders atoms node rest (unresolved \ outputColumns atoms provider)
      (insert provider dependencies, left)

def atomProviders (atoms : List CAtom) (node : ℕ) : CBitSet × CColRefSet :=
  match atoms[node]? with
  | some atom => resolveProviders atoms node (List.range atoms.length) atom.outerReferences
  | none => (∅, ∅)

def CJoinRegionSpec.buildDependencies (spec : CJoinRegionSpec V) : CJoinRegionSpec V :=
  let resolved := (List.range spec.atoms.length).map (atomProviders spec.atoms)
  { spec with
    dependencies := resolved.map Prod.fst
    dependencyCount := (resolved.map (fun entry => entry.1.card)).sum
    externalDependencies := resolved.any (fun entry => entry.2 ≠ ∅) }

def pbsCollect : CExpression V → CJoinRegionSpec V → CBitSet × CJoinRegionSpec V
  | .atom a, spec => ({spec.atoms.length}, { spec with atoms := spec.atoms ++ [a] })
  | .join op l r predicate notinComparison, spec =>
    let (left, spec) := pbsCollect l spec
    let (right, spec) := pbsCollect r spec
    let notin := if op = .leftAntiSemiJoinNotIn then notinComparison else none
    (left ∪ right, { spec with
      edges := spec.edges ++ [⟨op, left, right, predicate, notin, ∅, ∅, []⟩]
      pureInner := spec.pureInner && op = .innerJoin
      cdcSupported := spec.cdcSupported && fCDCSupportedJoin op })

def build (nullRejecting : CPredicate V → CColRefSet → Bool) (root : CExpression V) :
    Option (CJoinRegionSpec V) :=
  match root with
  | .atom _ => none
  | .join .. =>
    let (allNodes, spec) := pbsCollect root .empty
    if 2 ≤ spec.atoms.length ∧ spec.edges ≠ [] ∧ allNodes.card = spec.atoms.length then
      let spec := spec.buildDependencies
      some (if spec.cdcSupported then
        { spec with edges := buildEdges nullRejecting spec.atoms spec.edges } else spec)
    else none

end JoinRegion
