import Tuuli.FilterMatching

/-!
Which bindings the Filter matcher finds. If every conjunct is assigned, the first assignment that
passes the structural tests is taken without asking the constraint checker, so the order of the
conjuncts can decide whether a rule applies.
-/
namespace FilterMatching
open AssignmentSearch RuleModels

section Completeness
variable (engine : Engine) (rule : CDSLRule) (expr : CLogical)

def Accepts (base : CLogical) (model : Model) : Prop :=
  ∃ final, engine.fMatchBase rule base model = some final ∧ fCheck engine rule final = true

structure Assigns (conjuncts : List CExpression) (assigned : List ℕ) : Prop where
  length : assigned.length = rule.filters.length
  inside : ∀ position ∈ assigned, position < conjuncts.length

def Meets (conjuncts : List CExpression) (base : CLogical) (assigned : List ℕ) : Prop :=
  Assigns rule conjuncts assigned ∧
    ∃ model, bindChain rule conjuncts base assigned = some model ∧ Accepts engine rule base model

/-- An assignment that passes the structural tests of `FAssignmentCompatible`. -/
def Compatible (conjuncts : List CExpression) (base : CLogical) (assigned : List ℕ) : Prop :=
  Extends conjuncts.length (fAssignmentCompatible engine rule conjuncts base)
    rule.filters.length [] assigned

/-- If some assignment meets the constraints then a compatible one does. If no conjunct is left
over, no compatible assignment is tried before it. -/
def Covered (conjuncts : List CExpression) (base : CLogical) : Prop :=
  fCompletePredicate rule = true ∨
    ∀ assigned, Meets engine rule conjuncts base assigned → rule.filters.length ≤ 16 ∧
      ∃ chosen, Compatible engine rule conjuncts base chosen ∧
        Meets engine rule conjuncts base chosen ∧
        (conjuncts.length ≤ rule.filters.length →
          ∀ other, Compatible engine rule conjuncts base other → ¬ Precedes [] other chosen)

def Matchable (conjuncts : List CExpression) (base : CLogical) : Prop :=
  if fCompletePredicate rule then
    ∃ outcome, bindComplete engine rule conjuncts base = some outcome ∧
      Accepts engine rule base outcome.1
  else ∃ assigned, Meets engine rule conjuncts base assigned

/-- If some bindings are accepted by the base match and the constraint checker then those that
`fMatch` returns are. -/
def Complete : Prop :=
  ∀ conjuncts base, collected engine rule expr = some (conjuncts, base) →
    Matchable engine rule conjuncts base →
    ∃ result, fMatch engine rule expr = some result ∧ fCheck engine rule result.1 = true

variable {engine rule expr} {conjuncts : List CExpression} {base : CLogical} {assigned : List ℕ}
  {outcome : Outcome}

theorem fCompletePredicate_length (complete : fCompletePredicate rule = true) :
    rule.filters.length ≤ 16 := by
  unfold fCompletePredicate at complete
  split at complete
  next single =>
    rw [single]
    exact (by decide : 1 ≤ 16)
  next => cases complete

theorem Assigns.nonempty (assigns : Assigns rule conjuncts assigned) : conjuncts ≠ [] := by
  rintro rfl
  cases assigned with
  | nil => exact rule.nonempty (List.length_eq_zero_iff.mp assigns.length.symm)
  | cons position rest => exact Nat.not_lt_zero _ (assigns.inside position List.mem_cons_self)

theorem Compatible.assigns (compatible : Compatible engine rule conjuncts base assigned) :
    Assigns rule conjuncts assigned := by
  have all : ∀ {places : ℕ} {before full : List ℕ},
      Extends conjuncts.length (fAssignmentCompatible engine rule conjuncts base) places before
        full → (∀ position ∈ before, position < conjuncts.length) →
      ∀ position ∈ full, position < conjuncts.length := by
    intro places
    induction places with
    | zero =>
      rintro before _ rfl inside
      exact inside
    | succ places ih =>
      rintro before full ⟨i, bound, -, rest⟩ inside
      refine ih rest fun position member => ?_
      rcases List.mem_append.mp member with earlier | last
      · exact inside position earlier
      · exact List.mem_singleton.mp last ▸ bound
  obtain ⟨tail, rfl, length⟩ := compatible.exists_tail
  exact ⟨by simpa using length, all compatible (by simp)⟩

theorem fMatch_eq (short : rule.filters.length ≤ 16)
    (view : collected engine rule expr = some (conjuncts, base)) :
    fMatch engine rule expr =
      (bindFilters engine rule conjuncts base).bind fun (model, residual) =>
        (engine.fMatchBase rule base model).map (·, residual) := by
  unfold fMatch
  rw [if_neg (Nat.not_lt.mpr short), view]

theorem fMatch_accepted_iff (view : collected engine rule expr = some (conjuncts, base)) :
    (∃ result, fMatch engine rule expr = some result ∧ fCheck engine rule result.1 = true) ↔
      rule.filters.length ≤ 16 ∧ ∃ outcome,
        bindFilters engine rule conjuncts base = some outcome ∧
        Accepts engine rule base outcome.1 := by
  constructor
  · rintro ⟨result, found, checked⟩
    have short : rule.filters.length ≤ 16 := by
      by_contra long
      unfold fMatch at found
      rw [if_pos (Nat.not_le.mp long)] at found
      cases found
    rw [fMatch_eq short view] at found
    obtain ⟨outcome, bound, rest⟩ := Option.bind_eq_some_iff.mp found
    obtain ⟨final, matched, same⟩ := Option.map_eq_some_iff.mp rest
    subst same
    exact ⟨short, outcome, bound, final, matched, checked⟩
  · rintro ⟨short, outcome, bound, final, matched, checked⟩
    refine ⟨(final, outcome.2), ?_, checked⟩
    rw [fMatch_eq short view, bound]
    change (engine.fMatchBase rule base outcome.1).map (·, outcome.2) = _
    rw [matched]
    rfl

theorem validated_of_left_over (more : rule.filters.length < conjuncts.length) :
    validated engine rule conjuncts base assigned = true ↔
      ∃ model, bindChain rule conjuncts base assigned = some model ∧
        Accepts engine rule base model := by
  unfold validated Accepts
  rw [decide_eq_false (Nat.not_le.mpr more), Bool.false_or, Option.any_eq_true]
  constructor
  · rintro ⟨final, found, checked⟩
    obtain ⟨model, bound, matched⟩ := Option.bind_eq_some_iff.mp found
    exact ⟨model, bound, final, matched, checked⟩
  · rintro ⟨model, bound, final, matched, checked⟩
    exact ⟨final, Option.bind_eq_some_iff.mpr ⟨model, bound, matched⟩, checked⟩

theorem validated_of_few (few : conjuncts.length ≤ rule.filters.length) (assigned : List ℕ) :
    validated engine rule conjuncts base assigned = true := by
  unfold validated
  rw [decide_eq_true few, Bool.true_or]

theorem bindFilters_eq_some_iff (split : fCompletePredicate rule = false)
    (some_ : conjuncts ≠ []) :
    (∃ outcome, bindFilters engine rule conjuncts base = some outcome ∧
        Accepts engine rule base outcome.1) ↔
      ∃ chosen, fAssign engine rule conjuncts base = some chosen ∧
        Meets engine rule conjuncts base chosen := by
  have committed : bindFilters engine rule conjuncts base =
      (fAssign engine rule conjuncts base).bind (bindAssigned rule conjuncts base) := by
    unfold bindFilters
    rw [split, if_neg some_]
    rfl
  rw [committed]
  constructor
  · rintro ⟨outcome, bound, accepts⟩
    obtain ⟨chosen, assigns, binds⟩ := Option.bind_eq_some_iff.mp bound
    obtain ⟨model, chain, rfl⟩ := Option.map_eq_some_iff.mp binds
    have compatible : Compatible engine rule conjuncts base chosen := (search_eq_some assigns).1
    exact ⟨chosen, assigns, compatible.assigns, model, chain, accepts⟩
  · rintro ⟨chosen, assigns, -, model, chain, accepts⟩
    refine ⟨(model, recordResidual conjuncts chosen), ?_, accepts⟩
    rw [assigns, Option.bind_some, bindAssigned, chain]
    rfl

theorem fAssign_meets_iff :
    (∃ chosen, fAssign engine rule conjuncts base = some chosen ∧
        Meets engine rule conjuncts base chosen) ↔
      ∃ chosen, Compatible engine rule conjuncts base chosen ∧
        Meets engine rule conjuncts base chosen ∧
        (conjuncts.length ≤ rule.filters.length →
          ∀ other, Compatible engine rule conjuncts base other → ¬ Precedes [] other chosen) := by
  constructor
  · rintro ⟨chosen, assigns, meets⟩
    refine ⟨chosen, (search_eq_some assigns).1, meets, fun few other compatible => ?_⟩
    exact @search_first _ _ _ [] _ chosen other assigns compatible (validated_of_few few other)
  · rintro ⟨chosen, compatible, meets, first⟩
    by_cases few : conjuncts.length ≤ rule.filters.length
    · refine ⟨chosen, search_eq_of_first compatible (validated_of_few few chosen) ?_, meets⟩
      exact fun other extension _ => first few other extension
    · have more := Nat.not_le.mp few
      obtain ⟨found, assigns⟩ := Option.isSome_iff_exists.mp
        (search_isSome compatible ((validated_of_left_over more).mpr meets.2))
      obtain ⟨extension, valid⟩ := search_eq_some assigns
      have compatible' : Compatible engine rule conjuncts base found := extension
      exact ⟨found, assigns, compatible'.assigns, (validated_of_left_over more).mp valid⟩

theorem match_complete_iff (engine : Engine) (rule : CDSLRule) (expr : CLogical) :
    Complete engine rule expr ↔
      ∀ conjuncts base, collected engine rule expr = some (conjuncts, base) →
        Covered engine rule conjuncts base := by
  unfold Complete
  refine forall₂_congr fun conjuncts base => forall_congr' fun view => ?_
  rw [fMatch_accepted_iff view]
  unfold Covered Matchable
  cases complete : fCompletePredicate rule with
  | true =>
    simp only [if_true, true_or, iff_true]
    rintro ⟨outcome, bound, accepts⟩
    refine ⟨fCompletePredicate_length complete, outcome, ?_, accepts⟩
    unfold bindFilters
    rw [if_pos complete, bound]
  | false =>
    simp only [Bool.false_eq_true, if_false, false_or, forall_exists_index]
    refine forall₂_congr fun assigned meets => ?_
    rw [bindFilters_eq_some_iff complete meets.1.nonempty, fAssign_meets_iff]

end Completeness

section TwoFilters

def symbol (id : ℕ) (kind : EDslSymbolKind) : CDSLSymbol := ⟨id, kind, .source⟩

/-- Predicates are their own conjuncts, but for the object `2`, the conjunction of the objects
`0` and `1`, and the object `3`, their conjunction in the other order. Column `0` of the table is
a key. -/
def twoConjuncts : Engine where
  pdrgpexprConjuncts := fun predicate =>
    if predicate.pointer = 2 then [⟨0, [0]⟩, ⟨1, [1]⟩]
    else if predicate.pointer = 3 then [⟨1, [1]⟩, ⟨0, [0]⟩]
    else [predicate]
  pexprConjunction := fun _ => ⟨4, [0, 1]⟩
  fMatches := fun first second => first = second
  fNullRejecting := fun _ _ => false
  fMatchBase := fun _ _ model => model.fBind sameBinding (symbol 4 .table) (.artifact ⟨5, [0, 1]⟩)
  fColArraysSemanticEqual := fun _ _ first second => first = second
  fSameCapturedExpression := fun first second => first = second
  fEqualArtifacts := fun _ first second => first = second
  fMaterialize := fun _ _ _ model => some model
  fCheckOther := fun _ _ con model =>
    match con.symbols with
    | [_, attrs] => if model attrs = some (.attrs [0]) then some model else none
    | _ => none

/-- `Filter<p0 a0>(Filter<p1 a1>(Input<t0>))` with `Unique(t0, a0)`. -/
def twoFilters : CDSLRule where
  filters := [⟨symbol 0 .pred, symbol 1 .attrs, none⟩, ⟨symbol 2 .pred, symbol 3 .attrs, none⟩]
  base := .other
  baseAttrs := none
  constraints := [⟨.unique, [symbol 4 .table, symbol 1 .attrs]⟩]
  fRequiresCompleteSelectChain := false
  nonempty := by decide

def table : CLogical := .relation ⟨.other, 0, [0, 1], [], [], []⟩

def overTable (pointer : ℕ) : CLogical := .select ⟨pointer, [0, 1]⟩ table

def accepted (outcome : Option Outcome) : Option Bool :=
  outcome.map fun result => fCheck twoConjuncts twoFilters result.1

theorem match_depends_on_conjunct_order :
    accepted (fMatch twoConjuncts twoFilters (overTable 2)) = some true ∧
    accepted (fMatch twoConjuncts twoFilters (overTable 3)) = some false ∧
    Meets twoConjuncts twoFilters [⟨1, [1]⟩, ⟨0, [0]⟩] table [1, 0] := by
  refine ⟨by decide, by decide, ⟨rfl, by decide⟩, ?_⟩
  have checked : ((bindChain twoFilters [⟨1, [1]⟩, ⟨0, [0]⟩] table [1, 0]).bind
      (twoConjuncts.fMatchBase twoFilters table)).any (fCheck twoConjuncts twoFilters) = true := by
    decide
  obtain ⟨final, found, checked⟩ := (Option.any_eq_true _ _).mp checked
  obtain ⟨model, bound, matched⟩ := Option.bind_eq_some_iff.mp found
  exact ⟨model, bound, final, matched, checked⟩

end TwoFilters

end FilterMatching
