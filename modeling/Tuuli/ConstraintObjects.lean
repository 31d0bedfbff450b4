import Tuuli.IntervalDerivation

/-!
`CConstraint`: intervals of columns, conjunctions, disjunctions and negations, the scalar
expressions they stand for, and the constructors of conjunctions and disjunctions. A
constructor flattens children of its own kind and merges the children that use one column
alone: the merged expression is converted back to an interval, and if that fails the first of
the children stays and the others go.
-/
namespace Constraints
open OrderedSpans
open ScalarExpr (EBoolTest EArrCmpType)

section Metadata
variable (D : ℕ → Type) [∀ c, LinearOrder (D c)]

/-- What the constructors read of the metadata. `cmpOp` is the operator of the comparison
that `PexprScalarCmp` builds of a column and a constant; `none` if it has to put a cast that
is not binary coercible on one of them. `arrayCmp` tells for which comparisons a column has
the types and the operator of an array comparison. -/
structure Metadata where
  settings : Settings
  column : ∀ c, CColRef (D c)
  cmpOp : ∀ c, ECmpType → Option (D c) → Option ℕ
  arrayCmp : ℕ → ECmpType → Bool

inductive CConstraint where
  | interval (col : ℕ) (pci : RangeInterval (D col))
  | conjunction (children : List CConstraint)
  | disjunction (children : List CConstraint)
  | negation (child : CConstraint)

abbrev Row := ∀ c, Option (D c)

end Metadata

section Scalars
variable {D : Type} [LinearOrder D]

def constValue : CScalar D → Option Bool
  | .const truth => truth
  | _ => none

/-- `PexprConjDisj`: TRUE conjuncts are skipped, a FALSE one is the result; a disjunction the
other way round. -/
def pexprConjDisj (fConj : Bool) : List (CScalar D) → List (CScalar D) → CScalar D
  | [], [] => .const (some fConj)
  | [], [only] => only
  | [], first :: rest => if fConj then .boolAnd first rest else .boolOr first rest
  | pexpr :: rest, final =>
    if constValue pexpr = some fConj then pexprConjDisj fConj rest final
    else if constValue pexpr = some (!fConj) then .const (some (!fConj))
    else pexprConjDisj fConj rest (final ++ [pexpr])

def pexprScalarCmp (cmpOp : ECmpType → Option D → Option ℕ) (cmpType : ECmpType) (d : WithBot D) :
    CScalar D :=
  match cmpOp cmpType (constantOf d) with
  | some mdidOp => .cmp mdidOp cmpType (constantOf d)
  | none => .other fun value => compare cmpType value (constantOf d)

def pexprScalarCompEnd (cmpOp : ECmpType → Option D → Option ℕ) (end_ : Option (WithBot D))
    (eri : ERangeInclusion) (ecmptIncl ecmptExcl : ECmpType) : Option (CScalar D) :=
  end_.map fun d => pexprScalarCmp cmpOp (if eri = .eriIncluded then ecmptIncl else ecmptExcl) d

def CRange.fPoint [CComparator (WithBot D)] (range : CRange (WithBot D)) : Bool :=
  range.eriLeft = .eriIncluded ∧ range.eriRight = .eriIncluded ∧
    CRange.sameEnd range.right range.left

def CRange.pexprScalar [CComparator (WithBot D)] (cmpOp : ECmpType → Option D → Option ℕ) (range : CRange (WithBot D)) :
    CScalar D :=
  match range.left with
  | some d =>
    if range.fPoint then pexprScalarCmp cmpOp .ecmptEq d
    else pexprConjDisj true
      ((pexprScalarCompEnd cmpOp (some d) range.eriLeft .ecmptGEq .ecmptG).toList ++
        (pexprScalarCompEnd cmpOp range.right range.eriRight .ecmptLEq .ecmptL).toList) []
  | none =>
    pexprConjDisj true
      (pexprScalarCompEnd cmpOp range.right range.eriRight .ecmptLEq .ecmptL).toList []

namespace RangeInterval

/-- No values at all. A range of a boolean type with two finite ends, both excluded, counts as
empty. -/
def fContradiction (column : CColRef D) (pci : RangeInterval D) : Bool :=
  !pci.includesNull &&
    match pci.ranges with
    | [] => true
    | [range] =>
      column.boolType.isSome && range.eriLeft = .eriExcluded && range.eriRight = .eriExcluded &&
        range.left.isSome && range.right.isSome
    | _ => false

def isConstraintUnbounded (pci : RangeInterval D) : Bool :=
  pci.includesNull &&
    match pci.ranges with
    | [range] => range.left.isNone && range.right.isNone
    | _ => false

/-- An array of one constant is a comparison; no expression without the types for an array. -/
def pexprScalarArrayCmp (cmpOp : ECmpType → Option D → Option ℕ) (arrayCmp : ECmpType → Bool)
    (quantifier : EArrCmpType) (cmpType : ECmpType) (datums : List (WithBot D)) :
    Option (CScalar D) :=
  if arrayCmp cmpType then
    match datums with
    | [d] => some (pexprScalarCmp cmpOp cmpType d)
    | datums => some (.arrayCmp quantifier cmpType (datums.map constantOf))
  else none

variable [CComparator (WithBot D)]

def fConvertsToIn (pci : RangeInterval D) : Bool :=
  1 < pci.ranges.length && pci.ranges.all CRange.fPoint

def fMeetsOpen : List (CRange (WithBot D)) → Bool
  | left :: right :: rest =>
    left.eriRight = .eriExcluded && right.eriLeft = .eriExcluded &&
      CRange.sameEnd left.right right.left && fMeetsOpen (right :: rest)
  | _ => true

def fConvertsToNotIn (pci : RangeInterval D) : Bool :=
  1 < pci.ranges.length &&
    (pci.ranges.head?.bind CRange.left).isNone &&
    (pci.ranges.getLast?.bind CRange.right).isNone && fMeetsOpen pci.ranges

/-- The outer `none` is where the source follows the null pointer of a missing array
comparison. -/
def pexprConstructArrayScalar (cmpOp : ECmpType → Option D → Option ℕ) (arrayCmp : ECmpType → Bool)
    (pci : RangeInterval D) : Option (Option (CScalar D)) :=
  let pexpr :=
    if pci.fConvertsToIn then
      some (pexprScalarArrayCmp cmpOp arrayCmp .any .ecmptEq
        (pci.ranges.filterMap CRange.right))
    else if pci.fConvertsToNotIn then
      some (pexprScalarArrayCmp cmpOp arrayCmp .all .ecmptNEq
        (pci.ranges.dropLast.filterMap CRange.right))
    else none
  match pexpr with
  | none => some none
  | some none => if pci.includesNull then none else some none
  | some (some pexpr) =>
    some (some (if pci.includesNull then pexprConjDisj false [pexpr, .nullTest] [] else pexpr))

def pexprConstructDisjunctionScalar (cmpOp : ECmpType → Option D → Option ℕ)
    (pci : RangeInterval D) : CScalar D :=
  let exprs := pci.ranges.map (CRange.pexprScalar cmpOp)
  if exprs.map constValue = [some true] then
    if pci.includesNull then .const (some true) else .boolNot .nullTest
  else pexprConjDisj false (exprs ++ if pci.includesNull then [.nullTest] else []) []

def pexprScalar (settings : Settings) (column : CColRef D) (cmpOp : ECmpType → Option D → Option ℕ)
    (arrayCmp : ECmpType → Bool) (pci : RangeInterval D) : Option (CScalar D) :=
  if pci.fContradiction column then some (.const (some false))
  else if settings.arrayConstraints then
    match pci.pexprConstructArrayScalar cmpOp arrayCmp with
    | none => none
    | some none => some (pci.pexprConstructDisjunctionScalar cmpOp)
    | some (some pexpr) => some pexpr
  else some (pci.pexprConstructDisjunctionScalar cmpOp)

end RangeInterval

end Scalars

section Objects
variable {D : ℕ → Type} [∀ c, LinearOrder (D c)]

namespace CConstraint

mutual

def Sat (row : Row D) : CConstraint D → Prop
  | .interval col pci => pci.Has (row col)
  | .conjunction children => SatAll row children
  | .disjunction children => SatAny row children
  | .negation child => ¬ Sat row child

def SatAll (row : Row D) : List (CConstraint D) → Prop
  | [] => True
  | child :: rest => Sat row child ∧ SatAll row rest

def SatAny (row : Row D) : List (CConstraint D) → Prop
  | [] => False
  | child :: rest => Sat row child ∨ SatAny row rest

end

mutual

def pcrsUsed : CConstraint D → List ℕ
  | .interval col _ => [col]
  | .conjunction children => pcrsFromConstraints children
  | .disjunction children => pcrsFromConstraints children
  | .negation child => pcrsUsed child

def pcrsFromConstraints : List (CConstraint D) → List ℕ
  | [] => []
  | child :: rest => pcrsUsed child ∪ pcrsFromConstraints rest

end

mutual

def fContradiction (metadata : Metadata D) : CConstraint D → Bool
  | .interval col pci => pci.fContradiction (metadata.column col)
  | .conjunction children => anyContradiction metadata children
  | .disjunction children => allContradiction metadata children
  | .negation child => isConstraintUnbounded metadata child

def isConstraintUnbounded (metadata : Metadata D) : CConstraint D → Bool
  | .interval _ pci => pci.isConstraintUnbounded
  | .negation child => fContradiction metadata child
  | _ => false

def anyContradiction (metadata : Metadata D) : List (CConstraint D) → Bool
  | [] => false
  | child :: rest => fContradiction metadata child || anyContradiction metadata rest

def allContradiction (metadata : Metadata D) : List (CConstraint D) → Bool
  | [] => true
  | child :: rest => fContradiction metadata child && allContradiction metadata rest

end

section Conversion
variable [∀ c, CComparator (WithBot (D c))]

mutual

def pexprScalar (metadata : Metadata D) (col : ℕ) : CConstraint D → Option (CScalar (D col))
  | .interval used pci =>
    if same : used = col then
      (same ▸ pci).pexprScalar metadata.settings (metadata.column col) (metadata.cmpOp col)
        (metadata.arrayCmp col)
    else none
  | .conjunction children =>
    if anyContradiction metadata children then some (.const (some false))
    else (pexprScalars metadata col children).map fun exprs => pexprConjDisj true exprs []
  | .disjunction children =>
    if allContradiction metadata children then some (.const (some false))
    else (pexprScalars metadata col children).map fun exprs => pexprConjDisj false exprs []
  | .negation (.negation child) => pexprScalar metadata col child
  | .negation (.interval used pci) =>
    if same : used = col then
      match (same ▸ pci : RangeInterval (D col)).pciComplement (metadata.column col) with
      | none => none
      | some pciComp =>
        pciComp.pexprScalar metadata.settings (metadata.column col) (metadata.cmpOp col)
          (metadata.arrayCmp col)
    else none
  | .negation child => (pexprScalar metadata col child).map .boolNot

def pexprScalars (metadata : Metadata D) (col : ℕ) :
    List (CConstraint D) → Option (List (CScalar (D col)))
  | [] => some []
  | child :: rest =>
    match pexprScalar metadata col child with
    | none => none
    | some pexpr => (pexprScalars metadata col rest).map (pexpr :: ·)

end

inductive EConstraintType where
  | ectConjunction
  | ectDisjunction
  deriving DecidableEq, Repr

def EConstraintType.fConj : EConstraintType → Bool
  | .ectConjunction => true
  | .ectDisjunction => false

def flattened : EConstraintType → CConstraint D → List (CConstraint D)
  | .ectConjunction, .conjunction children => children
  | .ectDisjunction, .disjunction children => children
  | _, child => [child]

def pdrgpcnstrOnColumn (constraints : List (CConstraint D)) (col : ℕ) : List (CConstraint D) :=
  constraints.filter fun child => pcrsUsed child = [col]

def pciMerged (metadata : Metadata D) (ect : EConstraintType) (all : List (CConstraint D))
    (col : ℕ) : Derived (D col) :=
  match pexprScalars metadata col (pdrgpcnstrOnColumn all col) with
  | none => none
  | some exprs =>
    pciIntervalFromScalarExpr metadata.settings (metadata.column col) false .emdindSentinel
      (pexprConjDisj ect.fConj exprs [])

def deduplicateLoop (metadata : Metadata D) (ect : EConstraintType) (all : List (CConstraint D))
    (deduped : List ℕ) :
    List (CConstraint D) → Option (List (CConstraint D))
  | [] => some []
  | child :: rest =>
    match pcrsUsed child with
    | [col] =>
      if col ∈ deduped then deduplicateLoop metadata ect all deduped rest
      else if (pdrgpcnstrOnColumn all col).length = 1 then
        (deduplicateLoop metadata ect all deduped rest).map (child :: ·)
      else match pciMerged metadata ect all col with
        | none => none
        | some none =>
          (deduplicateLoop metadata ect all (col :: deduped) rest).map (child :: ·)
        | some (some pci) =>
          (deduplicateLoop metadata ect all (col :: deduped) rest).map (.interval col pci :: ·)
    | _ => (deduplicateLoop metadata ect all deduped rest).map (child :: ·)

def pdrgpcnstrDeduplicate (metadata : Metadata D) (ect : EConstraintType)
    (constraints : List (CConstraint D)) : Option (List (CConstraint D)) :=
  deduplicateLoop metadata ect constraints [] constraints

def pdrgpcnstrFlatten (metadata : Metadata D) (ect : EConstraintType)
    (constraints : List (CConstraint D)) : Option (List (CConstraint D)) :=
  pdrgpcnstrDeduplicate metadata ect (constraints.flatMap (flattened ect))

/-- The constructors `CConstraintConjunction` and `CConstraintDisjunction`. -/
def construct (metadata : Metadata D) (ect : EConstraintType) (constraints : List (CConstraint D)) :
    Option (CConstraint D) :=
  (pdrgpcnstrFlatten metadata ect constraints).map
    (match ect with
    | .ectConjunction => .conjunction
    | .ectDisjunction => .disjunction)

end Conversion

end CConstraint

end Objects

end Constraints
