import Tuuli.RuleModels
import Tuuli.TruthValues

/-!
`CDSLJoinMatcher::FMatch` for the equality-keyed forms of a join: the predicate is split into
key columns of the left and of the right input, the inputs of an inner join may be commuted,
the keys are aligned with columns bound before, and keys that are equivalent in both inputs
may be narrowed to one of them. Columns and rule symbols are numbers. The two key arrays are
kept as one list of edges. Matching the inputs, checking the constraints of the rule and the
store of join predicates are parameters.
-/
namespace JoinMatcher
open RuleModels TruthValues

section Predicates
variable (V : Type)

abbrev Row := ℕ → Option V

/-- An operand of a comparison: a column, possibly under a binary coercible cast, or anything
else, with the columns it uses. -/
inductive Operand where
  | column (col : ℕ)
  | computed (used : List ℕ) (value : Row V → Option V)

/-- What an equality operator, with the casts of its operands, says of two column values. It may
hold of different values, but it holds of equal ones. -/
structure Comparison where
  holds : V → V → Bool
  refl : ∀ v, holds v v = true

inductive Predicate where
  | and (children : List Predicate)
  | equality (comparison : Comparison V) (first second : Operand V)
  | other (used : List ℕ) (truth : Row V → Option Bool)

variable {V}

def Operand.value (row : Row V) : Operand V → Option V
  | .column col => row col
  | .computed _ value => value row

def Operand.used : Operand V → List ℕ
  | .column col => [col]
  | .computed used _ => used

def pcrJoinKeyOperand : Operand V → Option ℕ
  | .column col => some col
  | .computed _ _ => none

def Comparison.truth (comparison : Comparison V) : Option V → Option V → Option Bool
  | some v, some w => some (comparison.holds v w)
  | _, _ => none

mutual

def Predicate.truth (row : Row V) : Predicate V → Option Bool
  | .and children => conj (truths row children)
  | .equality comparison first second =>
    comparison.truth (first.value row) (second.value row)
  | .other _ truth => truth row

def Predicate.truths (row : Row V) : List (Predicate V) → List (Option Bool)
  | [] => []
  | child :: rest => child.truth row :: truths row rest

end

end Predicates

section Splitting
variable {V : Type}

mutual

def collectConjuncts : Predicate V → List (Predicate V)
  | .and children => collectAll children
  | pred => [pred]

def collectAll : List (Predicate V) → List (Predicate V)
  | [] => []
  | child :: rest => collectConjuncts child ++ collectAll rest

end

mutual

def Predicate.used : Predicate V → List ℕ
  | .and children => usedAll children
  | .equality _ first second => first.used ++ second.used
  | .other used _ => used

def Predicate.usedAll : List (Predicate V) → List ℕ
  | [] => []
  | child :: rest => child.used ++ usedAll rest

end

def keyEdge (leftOutput : List ℕ) : Predicate V → Option (ℕ × ℕ)
  | .equality _ first second =>
    match pcrJoinKeyOperand first, pcrJoinKeyOperand second with
    | some pcr0, some pcr1 =>
      if pcr0 ∈ leftOutput ∧ pcr1 ∉ leftOutput then some (pcr0, pcr1)
      else if pcr1 ∈ leftOutput ∧ pcr0 ∉ leftOutput then some (pcr1, pcr0)
      else none
    | _, _ => none
  | _ => none

structure Split (V : Type) where
  edges : List (ℕ × ℕ)
  equalities : List (Predicate V)
  residual : List (Predicate V)

def fSplitJoinPredicate (pred : Predicate V) (leftOutput : List ℕ) : Split V where
  edges := (collectConjuncts pred).filterMap (keyEdge leftOutput)
  equalities := (collectConjuncts pred).filter fun conjunct => (keyEdge leftOutput conjunct).isSome
  residual := (collectConjuncts pred).filter fun conjunct => (keyEdge leftOutput conjunct).isNone

end Splitting

section Models

abbrev Model := CDSLModel ℕ (Binding ℕ)

def pdrgpcrAttrs (model : Model) (sym : ℕ) : Option (List ℕ) :=
  match model sym with
  | some (.attrs columns) => some columns
  | _ => none

def sameBinding (existing value : Binding ℕ) : Bool := existing = value

/-- What the join matcher reads of a rule: the symbols of its source, those of its `AttrsEq`
constraints, and which symbols stand on the source side. -/
structure CDSLRule where
  fHasBindings : Bool
  sourceSymbols : List ℕ
  attrsEq : List (List ℕ)
  onSource : ℕ → Bool

def peerOf (sym : ℕ) : List ℕ → Option ℕ
  | [first, second] =>
    if sym = first then some second else if sym = second then some first else none
  | _ => none

def expectedLoop (rule : CDSLRule) (sym : ℕ) (model : Model) :
    Option (List ℕ) → List (List ℕ) → Option (List ℕ)
  | expected, [] => expected
  | expected, symbols :: rest =>
    match (peerOf sym symbols).filter rule.onSource with
    | none => expectedLoop rule sym model expected rest
    | some peer =>
      match pdrgpcrAttrs model peer, expected with
      | none, _ => expectedLoop rule sym model expected rest
      | some columns, none => expectedLoop rule sym model (some columns) rest
      | some columns, some before =>
        if before = columns then expectedLoop rule sym model expected rest else none

def pdrgpcrExpectedJoinKeys (rule : Option CDSLRule) (sym : ℕ) (model : Model) :
    Option (List ℕ) :=
  match rule with
  | none => pdrgpcrAttrs model sym
  | some rule => expectedLoop rule sym model (pdrgpcrAttrs model sym) rule.attrsEq

def fJoinKeyOrientationCompatible (expectedLeft expectedRight : Option (List ℕ))
    (left right : List ℕ) : Bool :=
  expectedLeft.all (· = left) && expectedRight.all (· = right)

end Models

section Aligning

def fits (expectedLeft expectedRight : Option (List ℕ)) (position : ℕ) (edge : ℕ × ℕ) : Bool :=
  expectedLeft.all (fun left => left[position]? = some edge.1) &&
    expectedRight.all (fun right => right[position]? = some edge.2)

def candidates (edges : List (ℕ × ℕ)) (expectedLeft expectedRight : Option (List ℕ)) (position : ℕ)
    (used : List ℕ) : List ℕ :=
  (List.range edges.length).filter fun candidate =>
    candidate ∉ used && edges[candidate]?.any (fits expectedLeft expectedRight position)

def alignLoop (edges : List (ℕ × ℕ)) (expectedLeft expectedRight : Option (List ℕ)) :
    List ℕ → List ℕ → Option (List ℕ)
  | [], used => some used
  | position :: rest, used =>
    match candidates edges expectedLeft expectedRight position used with
    | [only] => alignLoop edges expectedLeft expectedRight rest (used ++ [only])
    | _ => none

def selectEdges (edges : List (ℕ × ℕ)) (selected : List ℕ) : List (ℕ × ℕ) :=
  selected.filterMap (edges[·]?)

def alignJoinKeys (expectedLeft expectedRight : Option (List ℕ)) (edges : List (ℕ × ℕ)) :
    List (ℕ × ℕ) :=
  match expectedLeft.or expectedRight with
  | none => edges
  | some selector =>
    if expectedLeft.any (fun left => expectedRight.any fun right => left.length ≠ right.length) ||
        selector.length ≠ edges.length then edges
    else match alignLoop edges expectedLeft expectedRight (List.range selector.length) [] with
      | none => edges
      | some selected => selectEdges edges selected

end Aligning

section Narrowing

def addToGroups (equivalent : ℕ → ℕ → Bool) (edge : ℕ) : List (List ℕ) → List (List ℕ)
  | [] => [[edge]]
  | group :: rest =>
    if group.head?.any (equivalent · edge) then (group ++ [edge]) :: rest
    else group :: addToGroups equivalent edge rest

def edgeGroups (equivalent : ℕ → ℕ → Bool) (count : ℕ) : List (List ℕ) :=
  (List.range count).foldl (fun groups edge => addToGroups equivalent edge groups) []

def fTryJoinKeyRepresentatives (accepts : List ℕ → Bool) :
    List (List ℕ) → List ℕ → Option (List ℕ)
  | [], selected => if accepts selected then some selected else none
  | group :: rest, selected =>
    group.findSome? fun edge => fTryJoinKeyRepresentatives accepts rest (selected ++ [edge])

end Narrowing

section Matching
variable (V : Type)

inductive Side where
  | left
  | right
  deriving DecidableEq, Repr

/-- An inner or left outer join. `equivalent` is membership in a derived equivalence class of
the input, `rows` the rows the input can produce; derived classes are sound. -/
structure LiveJoin where
  fInner : Bool
  output : Side → List ℕ
  predicate : Predicate V
  outputColumns : List ℕ
  equivalent : Side → ℕ → ℕ → Bool
  rows : Side → Row V → Prop
  disjoint : ∀ col, col ∈ output .left → col ∉ output .right
  sound : ∀ side row, rows side row → ∀ col ∈ output side, ∀ other ∈ output side,
    equivalent side col other = true → row col = row other

structure CDSLJoinOp where
  fInner : Bool
  symbols : List ℕ

/-- The parts of the engine that the join matcher calls. `fMatch` matches one input of the
template against one input of the join; `fSetJoinPred` stores the conjuncts of the predicate,
or its key equalities only. -/
structure Engine where
  fMatch : Side → Side → Model → Option Model
  fCheck : CDSLRule → Model → Bool
  fRowScalar : Predicate V → Bool
  fSetJoinPred : ℕ → ℕ → List (Predicate V) → Bool → Bool

structure Matched where
  model : Model
  leftSide : Side

variable {V}

def Side.opposite : Side → Side
  | .left => .right
  | .right => .left

def fColumnsEquivalent (join : LiveJoin V) (side : Side) (first second : ℕ) : Bool :=
  first = second || join.equivalent side first second

/-- Edges by their numbers; `leftSide` is the input matched as the left one. -/
def fEquivalentJoinEdges (join : LiveJoin V) (leftSide : Side) (edges : List (ℕ × ℕ))
    (first second : ℕ) : Bool :=
  match edges[first]?, edges[second]? with
  | some edge, some other =>
    fColumnsEquivalent join leftSide edge.1 other.1 &&
      fColumnsEquivalent join leftSide.opposite edge.2 other.2
  | _, _ => false

def fAllOtherSourceSymbolsBound (rule : CDSLRule) (symLeft symRight : ℕ) (model : Model) :
    Bool :=
  rule.sourceSymbols.all fun sym => sym = symLeft || sym = symRight || (model sym).isSome

def probeModel (symLeft symRight : ℕ) (model : Model) (edges : List (ℕ × ℕ)) :
    Model → List ℕ → Option Model
  | probe, [] => some probe
  | probe, sym :: rest =>
    let value :=
      if sym = symLeft then some (.attrs (edges.map Prod.fst))
      else if sym = symRight then some (.attrs (edges.map Prod.snd))
      else model sym
    match value with
    | none => none
    | some value =>
      match probe.fBind sameBinding sym value with
      | none => none
      | some probe => probeModel symLeft symRight model edges probe rest

def fConstraintsHoldWithJoinKeys (engine : Engine V) (rule : CDSLRule) (symLeft symRight : ℕ)
    (model : Model) (edges : List (ℕ × ℕ)) : Bool :=
  (probeModel symLeft symRight model edges .empty rule.sourceSymbols).any
    (engine.fCheck rule)

/-- The bindings of all symbols of the source but the two, in a fresh model. -/
def otherBindings (rule : CDSLRule) (symLeft symRight : ℕ) (model : Model) : Model :=
  fun sym => if sym ∈ rule.sourceSymbols ∧ sym ≠ symLeft ∧ sym ≠ symRight then model sym else none

/-- Whether the constraints hold in one orientation, and whether all symbols were bound, so
that the answer counts. -/
def fJoinOrientationConstraintsHold (engine : Engine V) (rule : Option CDSLRule)
    (symLeft symRight : ℕ) (model : Model) (leftSide : Side) (edges : List (ℕ × ℕ)) :
    Bool × Bool :=
  match rule with
  | none => (false, false)
  | some rule =>
    match engine.fMatch .left leftSide (otherBindings rule symLeft symRight model) with
    | none => (false, false)
    | some probe =>
      match engine.fMatch .right leftSide.opposite probe with
      | none => (false, false)
      | some probe =>
        let complete := fAllOtherSourceSymbolsBound rule symLeft symRight probe
        (complete && fConstraintsHoldWithJoinKeys engine rule symLeft symRight probe edges,
          complete)

/-- Whether the inputs are commuted: the expected columns fit this way only, or they fit both
ways and the constraints hold this way only. -/
def fUseReverse (engine : Engine V) (rule : Option CDSLRule) (symLeft symRight : ℕ)
    (model : Model) (edges : List (ℕ × ℕ)) : Bool :=
  let expectedLeft := pdrgpcrExpectedJoinKeys rule symLeft model
  let expectedRight := pdrgpcrExpectedJoinKeys rule symRight model
  let fDirect := fJoinKeyOrientationCompatible expectedLeft expectedRight
    (edges.map Prod.fst) (edges.map Prod.snd)
  let fReverse := fJoinKeyOrientationCompatible expectedLeft expectedRight
    (edges.map Prod.snd) (edges.map Prod.fst)
  if fDirect && fReverse then
    let direct := fJoinOrientationConstraintsHold engine rule symLeft symRight model .left edges
    let reverse := fJoinOrientationConstraintsHold engine rule symLeft symRight model .right
      (edges.map Prod.swap)
    direct.2 && reverse.2 && !direct.1 && reverse.1
  else !fDirect && fReverse

def narrowEquivalentJoinKeysByConstraints (engine : Engine V) (rule : Option CDSLRule)
    (symLeft symRight : ℕ) (join : LiveJoin V) (leftSide : Side) (model : Model)
    (edges : List (ℕ × ℕ)) : List (ℕ × ℕ) :=
  match rule with
  | none => edges
  | some rule =>
    if edges.length < 2 || !fAllOtherSourceSymbolsBound rule symLeft symRight model ||
        fConstraintsHoldWithJoinKeys engine rule symLeft symRight model edges then edges
    else
      let groups := edgeGroups (fEquivalentJoinEdges join leftSide edges) edges.length
      if groups.length = edges.length then edges
      else match fTryJoinKeyRepresentatives (fun selected =>
          fConstraintsHoldWithJoinKeys engine rule symLeft symRight model
            (selectEdges edges selected)) groups [] with
        | none => edges
        | some selected => selectEdges edges selected

def fLocal (join : LiveJoin V) : Bool :=
  join.predicate.used.all fun col => col ∈ join.output .left || col ∈ join.output .right

def leftInput (engine : Engine V) (rule : Option CDSLRule) (symLeft symRight : ℕ)
    (join : LiveJoin V) (model : Model) (edges : List (ℕ × ℕ)) : Side :=
  if join.fInner && fUseReverse engine rule symLeft symRight model edges then .right else .left

def boundKeys (engine : Engine V) (rule : Option CDSLRule) (symLeft symRight : ℕ)
    (join : LiveJoin V) (leftSide : Side) (before model : Model) : List (ℕ × ℕ) :=
  let split := fSplitJoinPredicate join.predicate (join.output leftSide)
  let edges := alignJoinKeys (pdrgpcrExpectedJoinKeys rule symLeft before)
    (pdrgpcrExpectedJoinKeys rule symRight before) split.edges
  -- after commuting, the residual only decides whether the keys are narrowed
  if split.residual.length = 0 then
    narrowEquivalentJoinKeysByConstraints engine rule symLeft symRight join leftSide model edges
  else edges

def bindKeys (model : Model) (symLeft symRight : ℕ) (edges : List (ℕ × ℕ)) : Option Model :=
  (model.fBind sameBinding symLeft (.attrs (edges.map Prod.fst))).bind
    (·.fBind sameBinding symRight (.attrs (edges.map Prod.snd)))

def bindOutput (columns : List ℕ) : List ℕ → Model → Option Model
  | [], model => some model
  | sym :: rest, model =>
    (model.fBind sameBinding sym (.attrs columns)).bind (bindOutput columns rest)

/-- `FMatch` of a join template with two or four symbols. -/
def fMatch (engine : Engine V) (rule : Option CDSLRule) (op : CDSLJoinOp) (join : LiveJoin V)
    (model : Model) : Option Matched :=
  match op.symbols with
  | symLeft :: symRight :: outputs =>
    let bindings := rule.any CDSLRule.fHasBindings
    let split := fSplitJoinPredicate join.predicate (join.output .left)
    if op.fInner ≠ join.fInner ∨ (outputs.length ≠ 0 ∧ outputs.length ≠ 2) then none
    else if bindings && !(engine.fRowScalar join.predicate && fLocal join) then none
    else if split.residual.length ≠ 0 then none
    else do
      let leftSide := leftInput engine rule symLeft symRight join model split.edges
      let model₁ ← engine.fMatch .left leftSide model
      let model₂ ← engine.fMatch .right leftSide.opposite model₁
      let model₃ ← bindKeys model₂ symLeft symRight
        (boundKeys engine rule symLeft symRight join leftSide model model₂)
      let model₄ ← bindOutput join.outputColumns outputs model₃
      if engine.fSetJoinPred symLeft symRight (collectConjuncts join.predicate) false &&
          engine.fSetJoinPred symLeft symRight split.equalities true then
        some ⟨model₄, leftSide⟩
      else none
  | _ => none

end Matching

end JoinMatcher
