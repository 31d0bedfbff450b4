import Mathlib.Data.Finset.Card

/-!
The search for a proof that an expression is unique on some columns, as
`FExpressionUniqueOnAttrs` does it: through chains of selections to a derived key
whose columns are given or fixed by the selections, and through inner and left outer
joins whose other input is unique on the columns connected to the first. What the
catalog says of types, casts and comparisons is a parameter, as are the derived keys
and cardinalities.
-/
namespace UniqueAttrs

structure Catalog (Col Typ Op : Type) where
  colType : Col → Typ
  leftType : Op → Typ
  rightType : Op → Typ
  isEquality : Op → Bool
  isBinaryCoercible : Typ → Typ → Bool

inductive Scalar (Col Typ V : Type) where
  | ident (col : Col)
  | const (typ : Typ) (datum : Option V)
  | cast (target : Typ) (child : Scalar Col Typ V)
  | other (typ : Typ) (id : ℕ)

inductive Pred (Col Typ Op V : Type) where
  | and (children : List (Pred Col Typ Op V))
  | cmp (op : Op) (left right : Scalar Col Typ V)
  | other (id : ℕ)

/-- Selections and the two joins; `other` stands for all further logical expressions. -/
inductive CExpression (Col Typ Op V : Type) where
  | select (child : CExpression Col Typ Op V) (pred : Pred Col Typ Op V)
  | innerJoin (left right : CExpression Col Typ Op V) (pred : Pred Col Typ Op V)
  | leftOuterJoin (left right : CExpression Col Typ Op V) (pred : Pred Col Typ Op V)
  | other (id : ℕ)

structure Derived (Col Typ Op V : Type) where
  outputColumns : ℕ → Finset Col
  keyCollection : ℕ → Option (List (List Col))
  maxCard : CExpression Col Typ Op V → ℕ

variable {Col Typ Op V : Type} (catalog : Catalog Col Typ Op)

namespace Scalar

def typ : Scalar Col Typ V → Typ
  | ident col => catalog.colType col
  | const typ _ => typ
  | cast target _ => target
  | other typ _ => typ

def fConst : Scalar Col Typ V → Bool
  | const _ _ => true
  | cast target (const typ _) => catalog.isBinaryCoercible typ target
  | _ => false

def pcrEqualityOperand : Scalar Col Typ V → Option Col
  | ident col => some col
  | cast target (ident col) =>
    if catalog.isBinaryCoercible (catalog.colType col) target then some col else none
  | _ => none

end Scalar

section Search
variable [DecidableEq Col]

mutual

def fPredicateFixesColumn (col : Col) : Pred Col Typ Op V → Bool
  | .and children => fAnyFixesColumn col children
  | .cmp op left right =>
    catalog.isEquality op &&
      ((left.fConst catalog && right.pcrEqualityOperand catalog = some col) ||
        (right.fConst catalog && left.pcrEqualityOperand catalog = some col))
  | .other _ => false

def fAnyFixesColumn (col : Col) : List (Pred Col Typ Op V) → Bool
  | [] => false
  | child :: rest => fPredicateFixesColumn col child || fAnyFixesColumn col rest

end

def fFilterFixesColumn (col : Col) : CExpression Col Typ Op V → Bool
  | .select child pred =>
    fPredicateFixesColumn catalog col pred || fFilterFixesColumn col child
  | _ => false

def fAttrsAndFixedColumnsCoverKey (expr : CExpression Col Typ Op V) (attrs : Finset Col)
    (keys : List (List Col)) : Bool :=
  keys.any fun key =>
    0 < key.length && key.all fun col => col ∈ attrs || fFilterFixesColumn catalog col expr

mutual

def collectConnectedColumns (candidate joined : Finset Col) :
    Pred Col Typ Op V → Finset Col → Finset Col
  | .and children, connected => collectConnected candidate joined children connected
  | .cmp op left right, connected =>
    if catalog.isEquality op then
      match left.pcrEqualityOperand catalog, right.pcrEqualityOperand catalog with
      | some colLeft, some colRight =>
        if colLeft ∈ candidate ∧ colRight ∈ joined then insert colLeft connected
        else if colRight ∈ candidate ∧ colLeft ∈ joined then insert colRight connected
        else connected
      | _, _ => connected
    else connected
  | .other _, connected => connected

def collectConnected (candidate joined : Finset Col) :
    List (Pred Col Typ Op V) → Finset Col → Finset Col
  | [], connected => connected
  | child :: rest, connected =>
    collectConnected candidate joined rest
      (collectConnectedColumns candidate joined child connected)

end

variable (derived : Derived Col Typ Op V)

def deriveOutputColumns : CExpression Col Typ Op V → Finset Col
  | .select child _ => deriveOutputColumns child
  | .innerJoin left right _ => deriveOutputColumns left ∪ deriveOutputColumns right
  | .leftOuterJoin left right _ => deriveOutputColumns left ∪ deriveOutputColumns right
  | .other id => derived.outputColumns id

/-- What `FExpressionUniqueOnAttrs` asks of an expression around the search at its key source. -/
def concludes (expr : CExpression Col Typ Op V) (attrs : Finset Col) (unique : Bool) : Bool :=
  attrs ⊆ deriveOutputColumns derived expr && (unique || derived.maxCard expr ≤ 1)

/-- One round of the loop of `FBinaryJoinPreservesUniqueAttrs`: the anchor is unique on its
    part of the columns, and the other input on those connected to the anchor. -/
def anchors (uniqueAnchor uniqueOther : Finset Col → Bool) (anchor other : Finset Col)
    (pred : Pred Col Typ Op V) (attrs : Finset Col) : Bool :=
  0 < (attrs ∩ anchor).card && uniqueAnchor (attrs ∩ anchor) &&
    uniqueOther (collectConnectedColumns catalog other anchor pred ∅)

def keySourceUnique (expr : CExpression Col Typ Op V) :
    CExpression Col Typ Op V → Finset Col → Bool
  | .select child _, attrs => keySourceUnique expr child attrs
  | .innerJoin left right pred, attrs =>
    let uniqueLeft := fun attrs => concludes derived left attrs (keySourceUnique left left attrs)
    let uniqueRight := fun attrs =>
      concludes derived right attrs (keySourceUnique right right attrs)
    anchors catalog uniqueLeft uniqueRight (deriveOutputColumns derived left)
        (deriveOutputColumns derived right) pred attrs ||
      anchors catalog uniqueRight uniqueLeft (deriveOutputColumns derived right)
        (deriveOutputColumns derived left) pred attrs
  | .leftOuterJoin left right pred, attrs =>
    let uniqueLeft := fun attrs => concludes derived left attrs (keySourceUnique left left attrs)
    let uniqueRight := fun attrs =>
      concludes derived right attrs (keySourceUnique right right attrs)
    anchors catalog uniqueLeft uniqueRight (deriveOutputColumns derived left)
      (deriveOutputColumns derived right) pred attrs
  | .other id, attrs =>
    match derived.keyCollection id with
    | none => false
    | some keys => fAttrsAndFixedColumnsCoverKey catalog expr attrs keys

def fExpressionUniqueOnAttrs (expr : CExpression Col Typ Op V) (attrs : Finset Col) : Bool :=
  concludes derived expr attrs (keySourceUnique catalog derived expr expr attrs)

end Search

end UniqueAttrs
