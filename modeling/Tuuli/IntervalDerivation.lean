import Mathlib.Data.List.ReduceOption
import Tuuli.Intervals
import Tuuli.ScalarExpr

/-!
`PciIntervalFromScalarExpr`: the interval of a column derived from a boolean expression that
uses no other column. Expressions that are not one of the convertible forms are `other`, with
the truth value they have for each value of the column. A derivation ends in an interval, in
no interval (`some none`, the null pointer of the source), or follows a null pointer
(`none`).
-/
namespace Constraints
open OrderedSpans TruthValues
open ScalarExpr (EBoolTest EArrCmpType)

inductive EmdindexType where
  | emdindBtree
  | emdindHash
  | emdindBitmap
  | emdindGist
  | emdindGin
  | emdindBrin
  | emdindSentinel
  deriving DecidableEq, Repr

/-- The trace flags that the derivation reads, and the opfamilies of the metadata: whether an
operator is in those of both its sides. -/
structure Settings where
  arrayConstraints : Bool
  considerOpfamilies : Bool
  fOpInOpfamily : EmdindexType → ℕ → Bool

/-- Boolean expressions over one column of type `D`. Comparisons are those of the column,
possibly under a binary coercible cast, with a constant on the right; `none` is the NULL
constant. An `ident` is the column itself, of a boolean type. -/
inductive CScalar (D : Type) [LinearOrder D] where
  | ident (type : BoolType D)
  | const (truth : Option Bool)
  | cmp (mdidOp : ℕ) (cmpType : ECmpType) (constant : Option D)
  | isDistinctFrom (constant : Option D)
  | arrayCmp (quantifier : EArrCmpType) (cmpType : ECmpType) (elements : List (Option D))
  | nullTest
  | booleanTest (test : EBoolTest) (child : CScalar D)
  | boolAnd (first : CScalar D) (rest : List (CScalar D))
  | boolOr (first : CScalar D) (rest : List (CScalar D))
  | boolNot (child : CScalar D)
  | other (truth : Option D → Option Bool)

section Truth
variable {D : Type} [LinearOrder D]

def compare (cmpType : ECmpType) : Option D → Option D → Option Bool
  | some v, some w => some (cmpHolds cmpType v w)
  | _, _ => none

mutual

def CScalar.truth (value : Option D) : CScalar D → Option Bool
  | .ident type => value.map fun d => decide (d = type.tru)
  | .const truth => truth
  | .cmp _ cmpType constant => compare cmpType value constant
  | .isDistinctFrom constant => some (decide (value ≠ constant))
  | .arrayCmp .any cmpType elements => disj (elements.map (compare cmpType value))
  | .arrayCmp .all cmpType elements => conj (elements.map (compare cmpType value))
  | .nullTest => some value.isNone
  | .booleanTest test child => some (test.holds (child.truth value))
  | .boolAnd first rest => conj (first.truth value :: truths value rest)
  | .boolOr first rest => disj (first.truth value :: truths value rest)
  | .boolNot child => neg (child.truth value)
  | .other truth => truth value

def CScalar.truths (value : Option D) : List (CScalar D) → List (Option Bool)
  | [] => []
  | child :: rest => child.truth value :: truths value rest

end

def Holds : (inferNullsAs : Bool) → Option Bool → Prop
  | false, truth => truth = some true
  | true, truth => truth ≠ some false

instance : (inferNullsAs : Bool) → (truth : Option Bool) → Decidable (Holds inferNullsAs truth)
  | false, truth => inferInstanceAs (Decidable (truth = some true))
  | true, truth => inferInstanceAs (Decidable (truth ≠ some false))

end Truth

section Derivation
variable {D : Type}

abbrev Derived (D : Type) := Option (Option (RangeInterval D))

def pciIntervalFromColConstCmp (cmpType : ECmpType) (constant : Option D) (inferNullsAs : Bool) :
    RangeInterval D :=
  ⟨pciRangeFromColConstCmp cmpType (datum constant), inferNullsAs⟩

def nonNull (elements : List (Option D)) : List (WithBot D) :=
  elements.reduceOption.map WithBot.some

variable [LinearOrder D]

def pciIntervalFromScalarIdent (type : BoolType D) (inferNullsAs : Bool) : RangeInterval D :=
  pciIntervalFromColConstCmp .ecmptEq (some type.tru) inferNullsAs

def pciIntervalFromScalarNullAndUnknownTest : CScalar D → Option (RangeInterval D)
  | .ident _ => some (pciEmpty true)
  | _ => none

variable [CComparator (WithBot D)]

/-- The last range of NOT IN starts at the last element: the source follows a null pointer
if all elements are NULL. -/
def pcnstrIntervalFromScalarArrayCmp (cmpType : ECmpType) (elements : List (Option D))
    (inferNullsAs : Bool) : Derived D :=
  if elements.isEmpty then some none
  else match cmpType with
    | .ecmptEq => some (some ⟨inRanges (cDatumSortedSet (nonNull elements)), inferNullsAs⟩)
    | .ecmptNEq =>
      if (cDatumSortedSet (nonNull elements)).isEmpty then none
      else some (some ⟨notInRanges none (cDatumSortedSet (nonNull elements)), inferNullsAs⟩)
    | _ => some none

def pciIntervalFromScalarIDF (column : CColRef D) : Option D → Derived D
  | none => ((pciEmpty true).pciComplement column).map some
  | some d => some (some (pciIntervalFromColConstCmp .ecmptNEq (some d) true))

def pciNot (column : CColRef D) : Derived D → Derived D
  | none => none
  | some none => some none
  | some (some pciChild) => (pciChild.pciComplement column).map some

def pciAnd : Option (RangeInterval D) → Option (RangeInterval D) →
    Option (RangeInterval D)
  | some pci, some pciChild => some (pci.pciIntersect pciChild)
  | none, some pciChild => some pciChild
  | pci, none => pci

def unionPairs : List (RangeInterval D) → List (RangeInterval D)
  | pci1 :: pci2 :: rest => pci1.pciUnion pci2 :: unionPairs rest
  | short => short

def unionRounds : ℕ → List (RangeInterval D) → Option (RangeInterval D)
  | fuel + 1, pci1 :: pci2 :: rest => unionRounds fuel (unionPairs (pci1 :: pci2 :: rest))
  | _, pcis => pcis.head?

mutual

def pciIntervalFromScalarExpr (settings : Settings) (column : CColRef D) (inferNullsAs : Bool)
    (accessMethod : EmdindexType) : CScalar D → Derived D
  | .nullTest => some (some (pciEmpty true))
  | .booleanTest test child =>
    match test with
    | .isTrue => pciIntervalFromScalarExpr settings column false .emdindSentinel child
    | .isNotFalse => pciIntervalFromScalarExpr settings column true .emdindSentinel child
    | .isNotTrue =>
      pciNot column (pciIntervalFromScalarExpr settings column false .emdindSentinel child)
    | .isFalse =>
      pciNot column (pciIntervalFromScalarExpr settings column true .emdindSentinel child)
    | .isUnknown => some (pciIntervalFromScalarNullAndUnknownTest child)
    | .isNotUnknown => pciNot column (some (pciIntervalFromScalarNullAndUnknownTest child))
  | .boolAnd first rest =>
    match pciIntervalFromScalarExpr settings column inferNullsAs accessMethod first with
    | none => none
    | some pci => pciIntervalFromScalarBoolAnd settings column inferNullsAs accessMethod pci rest
  | .boolOr first rest =>
    match pciIntervalFromScalarExpr settings column inferNullsAs accessMethod first with
    | none => none
    | some none => some none
    | some (some pci) =>
      match pciIntervalFromScalarBoolOr settings column inferNullsAs accessMethod rest with
      | none => none
      | some none => some none
      | some (some pcis) => some (unionRounds (pcis.length + 1) (pci :: pcis))
  | .boolNot child =>
    pciNot column (pciIntervalFromScalarExpr settings column (!inferNullsAs) .emdindSentinel child)
  | .ident type => some (some (pciIntervalFromScalarIdent type inferNullsAs))
  | .cmp mdidOp cmpType constant =>
    if settings.considerOpfamilies && !settings.fOpInOpfamily accessMethod mdidOp then some none
    else some (some (pciIntervalFromColConstCmp cmpType constant inferNullsAs))
  | .isDistinctFrom constant => pciIntervalFromScalarIDF column constant
  | .const truth =>
    if truth = some true then some (pciUnbounded column true)
    else some (some (pciEmpty false))
  | .arrayCmp _ cmpType elements =>
    if settings.arrayConstraints then
      pcnstrIntervalFromScalarArrayCmp cmpType elements inferNullsAs
    else some none
  | .other _ => some none

def pciIntervalFromScalarBoolAnd (settings : Settings) (column : CColRef D) (inferNullsAs : Bool)
    (accessMethod : EmdindexType) (pci : Option (RangeInterval D)) :
    List (CScalar D) → Derived D
  | [] => some pci
  | child :: rest =>
    match pciIntervalFromScalarExpr settings column inferNullsAs accessMethod child with
    | none => none
    | some pciChild =>
      pciIntervalFromScalarBoolAnd settings column inferNullsAs accessMethod (pciAnd pci pciChild)
        rest

def pciIntervalFromScalarBoolOr (settings : Settings) (column : CColRef D) (inferNullsAs : Bool)
    (accessMethod : EmdindexType) :
    List (CScalar D) → Option (Option (List (RangeInterval D)))
  | [] => some (some [])
  | child :: rest =>
    match pciIntervalFromScalarExpr settings column inferNullsAs accessMethod child with
    | none => none
    | some none => some none
    | some (some pci) =>
      match pciIntervalFromScalarBoolOr settings column inferNullsAs accessMethod rest with
      | none => none
      | some none => some none
      | some (some pcis) => some (some (pci :: pcis))

end

end Derivation

end Constraints
