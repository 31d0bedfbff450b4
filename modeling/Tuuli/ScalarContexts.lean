import Mathlib.Data.FinEnum
import Tuuli.RewriteGuards
import Tuuli.RuleModels

/-!
The search for a scalar context: the first value below a scalar root that the pattern of
the hole matches. Each is tried on a copy of the bindings, copied back when it fits.
-/
namespace ScalarContexts
open RewriteProgram RuleModels CExpression

/-- A match writes to the model as it goes, and what it bound stays there when it fails. -/
abbrev Matching (Key V : Type) := CDSLModel Key V → Bool × CDSLModel Key V

namespace Matching
variable {Key V : Type}

def test (holds : CDSLModel Key V → Bool) : Matching Key V := fun model => (holds model, model)

def check (holds : Bool) : Matching Key V := test fun _ => holds

def inOrder : List (Matching Key V) → Matching Key V
  | [] => check true
  | first :: rest => fun model =>
    match first model with
    | (true, next) => inOrder rest next
    | (false, next) => (false, next)

def bind [DecidableEq Key] (same : V → V → Bool) (key : Key) (value : V) : Matching Key V :=
  fun model =>
    match model.fBind same key value with
    | some next => (true, next)
    | none => (false, model)

def Adds (matching : Matching Key V) : Prop :=
  ∀ model : CDSLModel Key V, model.Extends (matching model).2

@[simp] theorem adds_test (holds : CDSLModel Key V → Bool) : Adds (test holds) :=
  fun model => CDSLModel.Extends.refl model

@[simp] theorem adds_check (holds : Bool) : Adds (check holds : Matching Key V) :=
  adds_test _

@[simp] theorem adds_bind [DecidableEq Key] (same : V → V → Bool) (key : Key) (value : V) :
    Adds (bind same key value) := by
  intro model
  unfold bind
  split
  next next bound => exact CDSLModel.fBind_extends bound
  next => exact .refl model

theorem adds_inOrder {parts : List (Matching Key V)} (adds : ∀ part ∈ parts, Adds part) :
    Adds (inOrder parts) := by
  induction parts with
  | nil => exact adds_check true
  | cons first rest ih =>
    intro model
    have start := adds first List.mem_cons_self model
    unfold inOrder
    split
    next next ran =>
      rw [ran] at start
      exact start.trans (ih (fun part listed => adds part (.tail _ listed)) next)
    next next ran =>
      rw [ran] at start
      exact start

end Matching

section Copies
variable {Key V : Type} [FinEnum Key] [BEq V] {source target : CDSLModel Key V}

/-- Values are compared by address, and a copy holds the address it was copied from. -/
def compatible : Option V → Option V → Bool
  | some value, some existing => existing == value
  | _, _ => true

def copyPass (source : CDSLModel Key V) : List Key → Matching Key V
  | [], target => (true, target)
  | key :: rest, target =>
    if !compatible (source key) (target key) then (false, target)
    else copyPass source rest (Function.update target key ((target key).or (source key)))

def fCopyExpressionBindingsTo (source target : CDSLModel Key V) : Bool × CDSLModel Key V :=
  if !(FinEnum.toList Key).all fun key => compatible (source key) (target key) then
    (false, target)
  else copyPass source (FinEnum.toList Key) target

variable [ReflBEq V]

theorem compatible_or {value existing : Option V} (agree : compatible value existing) :
    compatible value (existing.or value) := by
  cases value <;> cases existing <;> simp_all [compatible]

theorem copyPass_eq (keys : List Key) (agree : ∀ key, compatible (source key) (target key)) :
    copyPass source keys target =
      (true, fun key => if key ∈ keys then (target key).or (source key) else target key) := by
  induction keys generalizing target with
  | nil => simp [copyPass]
  | cons head rest ih =>
    rw [copyPass, agree head, ih]
    · grind
    · intro key
      have kept := compatible_or (agree key)
      grind

theorem fCopy_eq (agree : ∀ key, compatible (source key) (target key)) :
    fCopyExpressionBindingsTo source target =
      (true, fun key => (target key).or (source key)) := by
  simp [fCopyExpressionBindingsTo, agree, copyPass_eq _ agree]

theorem fCopy_empty (source : CDSLModel Key V) :
    fCopyExpressionBindingsTo source CDSLModel.empty = (true, source) := by
  rw [fCopy_eq]
  · rfl
  · intro key
    cases source key <;> rfl

theorem fCopy_back (extended : target.Extends source) :
    fCopyExpressionBindingsTo source target = (true, source) := by
  rw [fCopy_eq]
  · congr 1
    funext key
    cases held : target key with
    | none => rfl
    | some value => rw [extended key value held, Option.some_or]
  · intro key
    cases held : target key with
    | none => cases source key <;> rfl
    | some value => simp [extended key value held, compatible]

end Copies

/-- `capture` gets the bindings before the search too: its guards are those of the symbols a
    candidate binds itself. -/
structure ContextSearch (Op Key V : Type) where
  fScalar : Op → Bool
  fScalarValue : CExpression Op → Bool
  capture : CDSLModel Key V → CExpression Op → Path → Matching Key V

namespace ContextSearch
variable {Op Key V : Type} (search : ContextSearch Op Key V)

mutual

def values : CExpression Op → Path → List (Path × CExpression Op)
  | node op children, path =>
    if search.fScalar op then
      (if search.fScalarValue (node op children) then [(path, node op children)] else []) ++
        valuesList children 0 path
    else []

def valuesList : List (CExpression Op) → ℕ → Path → List (Path × CExpression Op)
  | [], _, _ => []
  | child :: rest, index, path =>
    values child (path ++ [index]) ++ valuesList rest (index + 1) path

end

variable (model : CDSLModel Key V)

def firstFit (values : List (Path × CExpression Op)) : Bool × CDSLModel Key V :=
  match values.find? fun (path, value) => (search.capture model value path model).1 with
  | none => (false, model)
  | some (path, value) => search.capture model value path model

theorem firstFit_append (first rest : List (Path × CExpression Op)) :
    search.firstFit model (first ++ rest) =
      match search.firstFit model first with
      | (true, after) => (true, after)
      | (false, model) => search.firstFit model rest := by
  unfold firstFit
  rw [List.find?_append]
  cases found : first.find? _ with
  | none => rfl
  | some fit =>
    have fits := List.find?_some found
    rw [Option.some_or]
    dsimp only at fits ⊢
    split
    next after ran => exact ran
    next after ran => simp [ran] at fits

variable [FinEnum Key] [BEq V]

def fMatchCandidate (value : CExpression Op) (path : Path) : Bool × CDSLModel Key V :=
  match fCopyExpressionBindingsTo model CDSLModel.empty with
  | (false, _) => (false, model)
  | (true, trial) =>
    match search.capture model value path trial with
    | (false, _) => (false, model)
    | (true, trial) => fCopyExpressionBindingsTo trial model

mutual

def fMatchScalarContext : CExpression Op → Path → Matching Key V
  | node op children, path, model =>
    if !search.fScalar op then (false, model)
    else
      match if search.fScalarValue (node op children)
        then search.fMatchCandidate model (node op children) path
        else (false, model) with
      | (true, after) => (true, after)
      | (false, after) => searchChildren children 0 path after

def searchChildren : List (CExpression Op) → ℕ → Path → Matching Key V
  | [], _, _, model => (false, model)
  | child :: rest, index, path, model =>
    match fMatchScalarContext child (path ++ [index]) model with
    | (true, after) => (true, after)
    | (false, after) => searchChildren rest (index + 1) path after

end

variable [ReflBEq V] {search} (adds : ∀ before value path, (search.capture before value path).Adds)

include adds in
theorem fMatchCandidate_eq (value : CExpression Op) (path : Path) :
    search.fMatchCandidate model value path = search.firstFit model [(path, value)] := by
  rw [fMatchCandidate, fCopy_empty]
  have extended := adds model value path model
  simp only [firstFit, List.find?_cons, List.find?_nil]
  rcases ran : search.capture model value path model with ⟨fits, after⟩
  rw [ran] at extended
  cases fits with
  | false => rfl
  | true => exact (fCopy_back extended).trans ran.symm

include adds in
theorem fMatchScalarContext_eq : ∀ root path model,
    search.fMatchScalarContext root path model =
      search.firstFit model (search.values root path) := by
  refine @CExpression.rec Op _ (fun children => ∀ index path model,
    search.searchChildren children index path model =
      search.firstFit model (search.valuesList children index path)) ?_ ?_ ?_
  · intro op children ih path model
    rw [fMatchScalarContext, values]
    cases search.fScalar op with
    | false => rfl
    | true =>
      simp only [if_true, firstFit_append, ih, fMatchCandidate_eq _ adds]
      cases search.fScalarValue (node op children) <;> rfl
  · intro _ _ _
    rfl
  · intro child rest ih ihRest index path model
    simp only [searchChildren, valuesList, firstFit_append, ih, ihRest]

include adds in
theorem adds_fMatchScalarContext (root : CExpression Op) (path : Path) :
    (search.fMatchScalarContext root path).Adds := by
  intro model
  rw [fMatchScalarContext_eq adds, firstFit]
  split
  next => exact .refl model
  next path value _ => exact adds model value path model

end ContextSearch

end ScalarContexts
