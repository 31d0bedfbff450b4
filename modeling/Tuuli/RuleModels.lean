import Mathlib.Logic.Function.Basic
import Mathlib.Data.Nat.Notation

/-!
The symbols and constraints of a rule, and `CDSLModel`: what the symbols are bound to while the
source of the rule is matched. `FBind` compares with an earlier binding in a way that depends on
the kind of the symbol, so the comparison is a parameter. Bindings are never taken back.
-/
namespace RuleModels

inductive EDslSymbolKind where
  | table | attrs | pred | schema | func | scalar | expr | order | window | frame | frameBound
  | rank | callHead | valueList | compareHead
  deriving DecidableEq, Repr

inductive EDslSide where
  | source
  | target
  deriving DecidableEq, Repr

structure CDSLSymbol where
  id : ℕ
  kind : EDslSymbolKind
  side : EDslSide
  deriving DecidableEq, Repr

inductive EDslConstraintKind where
  | tableEq | attrsEq | predicateEq | schemaEq | funcEq | scalarEq | exprListEq | orderEq
  | windowEq | frameEq | rankEq
  | attrsSub | unique | notNull | reference | errorFree | deterministic | exprConcat
  | depsDisjoint | exprSplit | attrsIntersect | predicateFalse | scalarOne | scalarZero
  | attrsEmpty | attrsNonEmpty | predicateAnd | attrsUnion | schemaUnion | minimalGrouping
  | correlationEquality | cumulativeFrame | fullPartitionFrame | boundedRowsFrame | rowsFrame
  | outputAttrs | schemaFromAttrs | predicateDomainSplit | predicateAny | predicateAll
  | funcAttrs | nullOnEmpty | emptyInputCompensation | predicateNullSafeEq | orderEmpty
  | rankAttrs | exprNulls | tableShared | predicateNotTrue | predicateNullRejecting
  | predicateNot | sliceCompose
  deriving DecidableEq, Repr

structure CDSLConstraint where
  kind : EDslConstraintKind
  symbols : List CDSLSymbol
  deriving DecidableEq, Repr

def fEquality : EDslConstraintKind → Bool
  | .tableEq | .attrsEq | .predicateEq | .schemaEq | .funcEq | .scalarEq | .exprListEq
  | .orderEq | .windowEq | .frameEq | .rankEq => true
  | _ => false

/-- Columns of `Attrs` and `Schema` symbols, or what else a symbol was bound to. -/
inductive Binding (A : Type) where
  | attrs (columns : List ℕ)
  | artifact (a : A)
  deriving DecidableEq, Repr

abbrev CDSLModel (Sym V : Type) := Sym → Option V

namespace CDSLModel
variable {Sym V : Type} {model next last : CDSLModel Sym V}

def empty : CDSLModel Sym V := fun _ => none

def Extends (model next : CDSLModel Sym V) : Prop :=
  ∀ sym value, model sym = some value → next sym = some value

theorem Extends.refl (model : CDSLModel Sym V) : model.Extends model :=
  fun _ _ bound => bound

theorem Extends.trans (first : model.Extends next) (second : next.Extends last) :
    model.Extends last :=
  fun sym value bound => second sym value (first sym value bound)

variable [DecidableEq Sym] {same : V → V → Bool} {sym : Sym} {value : V}

def fBind (same : V → V → Bool) (model : CDSLModel Sym V) (sym : Sym) (value : V) :
    Option (CDSLModel Sym V) :=
  match model sym with
  | some existing => if same existing value then some model else none
  | none => some (Function.update model sym (some value))

theorem fBind_cases (bound : model.fBind same sym value = some next) :
    (∃ existing, model sym = some existing ∧ same existing value = true ∧ next = model) ∨
      (model sym = none ∧ next = Function.update model sym (some value)) := by
  unfold fBind at bound
  split at bound
  next existing known =>
    split at bound
    next accepted =>
      cases bound
      exact .inl ⟨existing, known, accepted, rfl⟩
    next => cases bound
  next fresh =>
    cases bound
    exact .inr ⟨fresh, rfl⟩

theorem fBind_extends (bound : model.fBind same sym value = some next) : model.Extends next := by
  intro other known found
  rcases fBind_cases bound with ⟨_, _, _, rfl⟩ | ⟨fresh, rfl⟩
  · exact found
  · have differs : other ≠ sym := by
      rintro rfl
      rw [fresh] at found
      cases found
    rw [Function.update_of_ne differs, found]

theorem fBind_bound (bound : model.fBind same sym value = some next) :
    ∃ kept, next sym = some kept ∧ (kept = value ∨ same kept value = true) := by
  rcases fBind_cases bound with ⟨existing, known, accepted, rfl⟩ | ⟨_, rfl⟩
  · exact ⟨existing, known, .inr accepted⟩
  · exact ⟨value, Function.update_self .., .inl rfl⟩

end CDSLModel

end RuleModels
