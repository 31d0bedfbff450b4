import Tuuli.IntervalConversion

/-!
Constraint objects on one column and the scalar expressions they are turned into. If every part of
the expression is converted, the interval has the values of the rows that satisfy the constraint.
Without that it still has them all, unless the negation of a conjunction or disjunction is among
the constraints.
-/
namespace Constraints
namespace CConstraint

variable {D : ℕ → Type} [∀ c, LinearOrder (D c)] {row : Row D} {metadata : Metadata D}
  {children : List (CConstraint D)} {child c : CConstraint D} {col : ℕ}

theorem satAll_iff : SatAll row children ↔ ∀ child ∈ children, Sat row child := by
  induction children with
  | nil => simp [SatAll]
  | cons child rest ih => simp [SatAll, ih]

theorem satAny_iff : SatAny row children ↔ ∃ child ∈ children, Sat row child := by
  induction children with
  | nil => simp [SatAny]
  | cons child rest ih => simp [SatAny, ih]

theorem sat_conjunction : Sat row (.conjunction children) ↔ ∀ child ∈ children, Sat row child := by
  rw [Sat, satAll_iff]

theorem sat_disjunction : Sat row (.disjunction children) ↔ ∃ child ∈ children, Sat row child := by
  rw [Sat, satAny_iff]

mutual

def intervals : CConstraint D → List (Σ c, RangeInterval (D c))
  | .interval col pci => [⟨col, pci⟩]
  | .conjunction children | .disjunction children => intervalsOf children
  | .negation child => intervals child

def intervalsOf : List (CConstraint D) → List (Σ c, RangeInterval (D c))
  | [] => []
  | child :: rest => intervals child ++ intervalsOf rest

end

section Regular
variable {known : (c : ℕ) → WithBot (D c) → Prop}

/-- The intervals of the constraint are proper, and none is taken for empty that is not. -/
def Regular (metadata : Metadata D) (known : (c : ℕ) → WithBot (D c) → Prop)
    (intervals : List (Σ c, RangeInterval (D c))) : Prop :=
  ∀ p ∈ intervals, p.2.Proper (known p.1) ∧ p.2.Honest (metadata.column p.1)

theorem regular_cons : Regular metadata known (intervalsOf (child :: children)) ↔
    Regular metadata known (intervals child) ∧ Regular metadata known (intervalsOf children) :=
  List.forall_mem_append

theorem regular_interval {pci : RangeInterval (D col)} :
    Regular metadata known (intervals (.interval col pci)) ↔
      pci.Proper (known col) ∧ pci.Honest (metadata.column col) :=
  List.forall_mem_singleton

mutual

theorem not_sat_of_contradiction : (c : CConstraint D) →
    Regular metadata known (intervals c) → fContradiction metadata c = true → ¬ Sat row c
  | .interval col pci, regular, contradiction => by
    rw [Sat]
    exact not_has_of_contradiction (regular_interval.mp regular).2 contradiction
  | .conjunction children, regular, contradiction => by
    rw [Sat]
    exact not_satAll_of_contradiction children regular contradiction
  | .disjunction children, regular, contradiction => by
    rw [Sat]
    exact not_satAny_of_contradiction children regular contradiction
  | .negation child, regular, contradiction => by
    rw [Sat]
    exact not_not_intro (sat_of_unbounded child regular contradiction)

theorem sat_of_unbounded : (c : CConstraint D) →
    Regular metadata known (intervals c) → isConstraintUnbounded metadata c = true → Sat row c
  | .interval col pci, _, unbounded => by
    rw [Sat]
    exact has_of_isConstraintUnbounded unbounded
  | .conjunction _, _, unbounded => by cases unbounded
  | .disjunction _, _, unbounded => by cases unbounded
  | .negation child, regular, unbounded => by
    rw [Sat]
    exact not_sat_of_contradiction child regular unbounded

theorem not_satAll_of_contradiction : (children : List (CConstraint D)) →
    Regular metadata known (intervalsOf children) → anyContradiction metadata children = true →
    ¬ SatAll row children
  | [], _, contradiction => by cases contradiction
  | child :: rest, regular, contradiction => by
    obtain ⟨first, later⟩ := regular_cons.mp regular
    rw [anyContradiction, Bool.or_eq_true] at contradiction
    rw [SatAll, not_and_or]
    exact contradiction.imp (not_sat_of_contradiction child first)
      (not_satAll_of_contradiction rest later)

theorem not_satAny_of_contradiction : (children : List (CConstraint D)) →
    Regular metadata known (intervalsOf children) → allContradiction metadata children = true →
    ¬ SatAny row children
  | [], _, _ => by
    rw [SatAny]
    exact not_false
  | child :: rest, regular, contradiction => by
    obtain ⟨first, later⟩ := regular_cons.mp regular
    rw [allContradiction, Bool.and_eq_true] at contradiction
    rw [SatAny, not_or]
    exact ⟨not_sat_of_contradiction child first contradiction.1,
      not_satAny_of_contradiction rest later contradiction.2⟩

end

end Regular

section Expressions
variable [comp : ∀ c, CComparator (WithBot (D c))] {known : (c : ℕ) → WithBot (D c) → Prop}
  {e : CScalar (D col)} {exprs : List (CScalar (D col))}

theorem expr_of_child (made : pexprScalars metadata col children = some exprs)
    (listed : c ∈ children) : ∃ e ∈ exprs, pexprScalar metadata col c = some e := by
  induction children generalizing exprs with
  | nil => exact absurd listed List.not_mem_nil
  | cons child rest ih =>
    rw [pexprScalars] at made
    split at made
    · cases made
    · rename_i first isFirst
      obtain ⟨later, isLater, rfl⟩ := Option.map_eq_some_iff.mp made
      rcases List.mem_cons.mp listed with rfl | inside
      · exact ⟨first, List.mem_cons_self, isFirst⟩
      · obtain ⟨e, mem, isExpr⟩ := ih isLater inside
        exact ⟨e, List.mem_cons_of_mem first mem, isExpr⟩

theorem child_of_expr (made : pexprScalars metadata col children = some exprs)
    (listed : e ∈ exprs) : ∃ c ∈ children, pexprScalar metadata col c = some e := by
  induction children generalizing exprs with
  | nil =>
    rw [pexprScalars] at made
    cases made
    exact absurd listed List.not_mem_nil
  | cons child rest ih =>
    rw [pexprScalars] at made
    split at made
    · cases made
    · rename_i first isFirst
      obtain ⟨later, isLater, rfl⟩ := Option.map_eq_some_iff.mp made
      rcases List.mem_cons.mp listed with rfl | inside
      · exact ⟨child, List.mem_cons_self, isFirst⟩
      · obtain ⟨c, mem, isExpr⟩ := ih isLater inside
        exact ⟨c, List.mem_cons_of_mem child mem, isExpr⟩

theorem pexprScalar_interval {used : ℕ} {pci : RangeInterval (D used)}
    (result : pexprScalar metadata col (.interval used pci) = some e) :
    ∃ same : used = col, (same ▸ pci : RangeInterval (D col)).pexprScalar metadata.settings
      (metadata.column col) (metadata.cmpOp col) (metadata.arrayCmp col) = some e := by
  rw [pexprScalar] at result
  split at result
  · rename_i same
    exact ⟨same, result⟩
  · cases result

theorem pexprScalar_negated {used : ℕ} {pci : RangeInterval (D used)}
    (result : pexprScalar metadata col (.negation (.interval used pci)) = some e) :
    ∃ (same : used = col) (complement : RangeInterval (D col)),
      (same ▸ pci : RangeInterval (D col)).pciComplement (metadata.column col) = some complement ∧
      complement.pexprScalar metadata.settings (metadata.column col) (metadata.cmpOp col)
        (metadata.arrayCmp col) = some e := by
  rw [pexprScalar] at result
  split at result
  · rename_i same
    split at result
    · cases result
    · rename_i complement isComplement
      exact ⟨same, complement, isComplement, result⟩
  · cases result

def junction (conj : Bool) (children : List (CConstraint D)) : CConstraint D :=
  if conj then .conjunction children else .disjunction children

theorem pexprScalar_junction (conj : Bool)
    (result : pexprScalar metadata col (junction conj children) = some e) :
    (fContradiction metadata (junction conj children) = true ∧ e = .const (some false)) ∨
      ∃ exprs, pexprScalars metadata col children = some exprs ∧
        e = pexprConjDisj conj exprs [] := by
  cases conj
  all_goals
    simp only [junction, if_true, Bool.false_eq_true, if_false] at result ⊢
    rw [pexprScalar] at result
    split at result
    · rename_i contradiction
      cases result
      exact .inl ⟨contradiction, rfl⟩
    · obtain ⟨exprs, made, rfl⟩ := Option.map_eq_some_iff.mp result
      exact .inr ⟨exprs, made, rfl⟩

theorem pexprScalar_not_junction (conj : Bool) :
    pexprScalar metadata col (.negation (junction conj children)) =
      (pexprScalar metadata col (junction conj children)).map .boolNot := by
  cases conj
  all_goals
    simp only [junction, if_true, Bool.false_eq_true, if_false]
    conv_lhs => unfold pexprScalar

end Expressions

section Datums
variable [comp : ∀ c, CComparator (WithBot (D c))] {known : (c : ℕ) → WithBot (D c) → Prop}

/-- The datums of the expression of a constraint are ends of its intervals or of the universe. -/
def DatumsKnown (metadata : Metadata D) (known : (c : ℕ) → WithBot (D c) → Prop) (col : ℕ)
    (c : CConstraint D) : Prop :=
  ∀ e, pexprScalar metadata col c = some e →
    ∀ d ∈ datums metadata.settings (metadata.column col) .emdindSentinel e, known col d

theorem datums_exprs {exprs : List (CScalar (D col))}
    (made : pexprScalars metadata col children = some exprs)
    (each : ∀ c ∈ children, DatumsKnown metadata known col c) :
    ∀ e ∈ exprs, ∀ d ∈ datums metadata.settings (metadata.column col) .emdindSentinel e,
      known col d := by
  intro e listed
  obtain ⟨c, mem, isExpr⟩ := child_of_expr made listed
  exact each c mem e isExpr

theorem datumsKnown_negation (inner : DatumsKnown metadata known col child)
    (made : pexprScalar metadata col (.negation child) =
      (pexprScalar metadata col child).map .boolNot) :
    DatumsKnown metadata known col (.negation child) := by
  intro e result
  rw [made] at result
  obtain ⟨e, isInner, rfl⟩ := Option.map_eq_some_iff.mp result
  exact inner e isInner

theorem datumsKnown_junction (conj : Bool)
    (each : ∀ c ∈ children, DatumsKnown metadata known col c) :
    DatumsKnown metadata known col (junction conj children) := by
  intro e result
  rcases pexprScalar_junction conj result with ⟨-, rfl⟩ | ⟨exprs, made, rfl⟩
  · exact fun d mem => absurd mem List.not_mem_nil
  · exact datums_pexprConjDisj (datums_exprs made each)

mutual

theorem datumsKnown (agrees : (comp col).AgreesOn (known col))
    (bounds : (metadata.column col).KnownBounds (known col)) : (c : CConstraint D) →
    Regular metadata known (intervals c) → DatumsKnown metadata known col c
  | .interval used pci, regular => by
    intro e result
    obtain ⟨rfl, result⟩ := pexprScalar_interval result
    exact datums_interval (regular_interval.mp regular).1 result
  | .conjunction children, regular =>
    datumsKnown_junction true (datumsKnownAll agrees bounds children regular)
  | .disjunction children, regular =>
    datumsKnown_junction false (datumsKnownAll agrees bounds children regular)
  | .negation (.interval used pci), regular => by
    intro e result
    obtain ⟨rfl, complement, isComplement, result⟩ := pexprScalar_negated result
    have proper := pciComplement_spec agrees bounds (regular_interval.mp regular).1 isComplement
    exact datums_interval proper.1 result
  | .negation (.negation child), regular => by
    intro e result
    rw [pexprScalar] at result
    exact datumsKnown agrees bounds child regular e result
  | .negation (.conjunction children), regular =>
    datumsKnown_negation (datumsKnown_junction true (datumsKnownAll agrees bounds children regular))
      (pexprScalar_not_junction true)
  | .negation (.disjunction children), regular =>
    datumsKnown_negation (datumsKnown_junction false (datumsKnownAll agrees bounds children regular))
      (pexprScalar_not_junction false)

theorem datumsKnownAll (agrees : (comp col).AgreesOn (known col))
    (bounds : (metadata.column col).KnownBounds (known col)) : (children : List (CConstraint D)) →
    Regular metadata known (intervalsOf children) →
    ∀ c ∈ children, DatumsKnown metadata known col c
  | [], _ => fun _ listed => absurd listed List.not_mem_nil
  | child :: rest, regular => by
    obtain ⟨first, later⟩ := regular_cons.mp regular
    exact List.forall_mem_cons.mpr
      ⟨datumsKnown agrees bounds child first, datumsKnownAll agrees bounds rest later⟩

end

end Datums

section Values
variable [comp : ∀ c, CComparator (WithBot (D c))] {known : (c : ℕ) → WithBot (D c) → Prop}

/-- If its expression converts as a whole, the constraint is satisfied for the values of the
interval and no others. -/
def Exact (metadata : Metadata D) (col : ℕ) (c : CConstraint D) : Prop :=
  ∀ e, pexprScalar metadata col c = some e →
    fComplete metadata.settings (metadata.column col) e = true → ∀ inferNullsAs q,
    converted metadata.settings (metadata.column col) inferNullsAs e = some (some q) →
    ∀ row v, row col = some v → (q.Has (some v) ↔ Sat row c)

variable (agrees : (comp col).AgreesOn (known col))
  (bounds : (metadata.column col).KnownBounds (known col))

include agrees bounds

theorem exact_negation (datums : DatumsKnown metadata known col child)
    (exact : Exact metadata col child)
    (made : pexprScalar metadata col (.negation child) =
      (pexprScalar metadata col child).map .boolNot) : Exact metadata col (.negation child) := by
  intro e result complete inferNullsAs q run row v isValue
  rw [made] at result
  obtain ⟨inner, isInner, rfl⟩ := Option.map_eq_some_iff.mp result
  rw [converted, pciIntervalFromScalarExpr] at run
  obtain ⟨p, derived, -, has⟩ := pciNot_spec agrees bounds run fun p derived =>
    proper_converted agrees bounds (datums inner isInner) derived
  rw [has, Sat, exact inner isInner complete _ p derived row v isValue]

variable (constrainable : (metadata.column col).constrainable = true)

include constrainable

theorem exact_interval {used : ℕ} {pci : RangeInterval (D used)}
    (regular : Regular metadata known (intervals (.interval used pci))) :
    Exact metadata col (.interval used pci) := by
  intro e result complete inferNullsAs q run row v isValue
  obtain ⟨proper, honest⟩ := regular_interval.mp regular
  obtain ⟨rfl, result⟩ := pexprScalar_interval result
  rw [Sat, isValue]
  exact ⟨interval_of_has agrees proper bounds constrainable result run complete,
    has_of_interval agrees proper bounds honest result run⟩

theorem exact_negated {used : ℕ} {pci : RangeInterval (D used)}
    (regular : Regular metadata known (intervals (.interval used pci))) :
    Exact metadata col (.negation (.interval used pci)) := by
  intro e result complete inferNullsAs q run row v isValue
  obtain ⟨proper, -⟩ := regular_interval.mp regular
  obtain ⟨rfl, complement, isComplement, result⟩ := pexprScalar_negated result
  obtain ⟨built, has⟩ := pciComplement_spec agrees bounds proper isComplement
  have honest := honest_complement agrees bounds proper isComplement
  rw [Sat, Sat, isValue, ← has]
  exact ⟨interval_of_has agrees built bounds constrainable result run complete,
    has_of_interval agrees built bounds honest result run⟩

theorem exact_conjunction (regular : Regular metadata known (intervals (.conjunction children)))
    (datums : ∀ c ∈ children, DatumsKnown metadata known col c)
    (each : ∀ c ∈ children, Exact metadata col c) :
    Exact metadata col (.conjunction children) := by
  intro e result complete inferNullsAs q run row v isValue
  rcases pexprScalar_junction true result with ⟨contradiction, rfl⟩ | ⟨exprs, made, rfl⟩
  · exact iff_of_false (not_has_of_converted_false run)
      (not_sat_of_contradiction _ regular contradiction)
  have all := datums_exprs made datums
  rw [sat_conjunction]
  constructor
  · intro has c listed
    obtain ⟨e, mem, isExpr⟩ := expr_of_child made listed
    obtain ⟨whole, p, derived, inside⟩ :=
      exists_of_has_conj agrees bounds all constrainable run complete has mem
    exact (each c listed e isExpr whole _ p derived row v isValue).mp inside
  · intro sat
    have part : ∀ e ∈ exprs, fComplete metadata.settings (metadata.column col) e = true → ∀ p,
        converted metadata.settings (metadata.column col) inferNullsAs e = some (some p) →
        p.Has (some v) := by
      intro e mem whole p derived
      obtain ⟨c, listed, isExpr⟩ := child_of_expr made mem
      exact (each c listed e isExpr whole _ p derived row v isValue).mpr (sat c listed)
    rcases fComplete_parts constrainable complete with isFalse | whole
    · exact absurd (part _ isFalse rfl _ converted_false) not_has_pciEmpty
    · exact has_conj agrees bounds all run fun e mem p derived =>
        part e mem (whole e mem) p derived

theorem exact_disjunction (regular : Regular metadata known (intervals (.disjunction children)))
    (datums : ∀ c ∈ children, DatumsKnown metadata known col c)
    (each : ∀ c ∈ children, Exact metadata col c) :
    Exact metadata col (.disjunction children) := by
  intro e result complete inferNullsAs q run row v isValue
  rcases pexprScalar_junction false result with ⟨contradiction, rfl⟩ | ⟨exprs, made, rfl⟩
  · exact iff_of_false (not_has_of_converted_false run)
      (not_sat_of_contradiction _ regular contradiction)
  have all := datums_exprs made datums
  rw [sat_disjunction]
  constructor
  · intro has
    obtain ⟨e, mem, whole, p, derived, inside⟩ :=
      exists_of_has_disj agrees bounds all constrainable run complete has
    obtain ⟨c, listed, isExpr⟩ := child_of_expr made mem
    exact ⟨c, listed, (each c listed e isExpr whole _ p derived row v isValue).mp inside⟩
  · rintro ⟨c, listed, sat⟩
    rcases fComplete_parts constrainable complete with isTrue | whole
    · exact has_disj agrees bounds all run isTrue fun p derived => has_of_converted_true derived
    · obtain ⟨e, mem, isExpr⟩ := expr_of_child made listed
      exact has_disj agrees bounds all run mem fun p derived =>
        (each c listed e isExpr (whole e mem) _ p derived row v isValue).mpr sat

omit agrees bounds constrainable

mutual

theorem exact_of_regular (agrees : (comp col).AgreesOn (known col))
    (bounds : (metadata.column col).KnownBounds (known col))
    (constrainable : (metadata.column col).constrainable = true) : (c : CConstraint D) →
    Regular metadata known (intervals c) → Exact metadata col c
  | .interval used pci, regular => exact_interval agrees bounds constrainable regular
  | .conjunction children, regular =>
    exact_conjunction agrees bounds constrainable regular
      (datumsKnownAll agrees bounds children regular)
      (allExact_of_regular agrees bounds constrainable children regular)
  | .disjunction children, regular =>
    exact_disjunction agrees bounds constrainable regular
      (datumsKnownAll agrees bounds children regular)
      (allExact_of_regular agrees bounds constrainable children regular)
  | .negation (.interval used pci), regular => exact_negated agrees bounds constrainable regular
  | .negation (.negation child), regular => by
    intro e result complete inferNullsAs q run row v isValue
    rw [pexprScalar] at result
    rw [Sat, Sat, not_not]
    exact exact_of_regular agrees bounds constrainable child regular e result complete inferNullsAs q
      run row v isValue
  | .negation (.conjunction children), regular =>
    exact_negation agrees bounds (datumsKnown agrees bounds (.conjunction children) regular)
      (exact_of_regular agrees bounds constrainable (.conjunction children) regular)
      (pexprScalar_not_junction true)
  | .negation (.disjunction children), regular =>
    exact_negation agrees bounds (datumsKnown agrees bounds (.disjunction children) regular)
      (exact_of_regular agrees bounds constrainable (.disjunction children) regular)
      (pexprScalar_not_junction false)

theorem allExact_of_regular (agrees : (comp col).AgreesOn (known col))
    (bounds : (metadata.column col).KnownBounds (known col))
    (constrainable : (metadata.column col).constrainable = true) :
    (children : List (CConstraint D)) → Regular metadata known (intervalsOf children) →
    ∀ c ∈ children, Exact metadata col c
  | [], _ => fun _ listed => absurd listed List.not_mem_nil
  | child :: rest, regular => by
    obtain ⟨first, later⟩ := regular_cons.mp regular
    exact List.forall_mem_cons.mpr ⟨exact_of_regular agrees bounds constrainable child first,
      allExact_of_regular agrees bounds constrainable rest later⟩

end

end Values

section Recovery
variable [comp : ∀ c, CComparator (WithBot (D c))] {known : (c : ℕ) → WithBot (D c) → Prop}

/-- The negation of what is turned into `e` is read as the complement of the interval of `e` with
NULL taken for true. It loses no row if all of `e` is converted, so that no value is in the interval
by mistake, and if NULL satisfies the constraint or makes `e` false. -/
def NegationRecovers (metadata : Metadata D) (col : ℕ) (child : CConstraint D) : Prop :=
  ∀ e, pexprScalar metadata col child = some e →
    fConverts metadata.settings (metadata.column col) .emdindSentinel e = true →
    fComplete metadata.settings (metadata.column col) e = true ∧
      ((∀ row, row col = none → Sat row child) ∨
        Fits metadata.settings (metadata.column col) .lower true .emdindSentinel e ∧
          e.truth none = some false)

mutual

/-- Only the negation of a conjunction or disjunction can lose rows of the constraint. -/
def Recovers (metadata : Metadata D) (col : ℕ) : CConstraint D → Prop
  | .interval _ _ => True
  | .conjunction children | .disjunction children => AllRecover metadata col children
  | .negation (.interval _ _) => True
  | .negation (.negation child) => Recovers metadata col child
  | .negation (.conjunction children) => NegationRecovers metadata col (.conjunction children)
  | .negation (.disjunction children) => NegationRecovers metadata col (.disjunction children)

def AllRecover (metadata : Metadata D) (col : ℕ) : List (CConstraint D) → Prop
  | [] => True
  | child :: rest => Recovers metadata col child ∧ AllRecover metadata col rest

end

def Recovered (metadata : Metadata D) (col : ℕ) (c : CConstraint D) : Prop :=
  ∀ e, pexprScalar metadata col c = some e → ∀ q,
    converted metadata.settings (metadata.column col) false e = some (some q) →
    ∀ row, Sat row c → q.Has (row col)

variable (agrees : (comp col).AgreesOn (known col))
  (bounds : (metadata.column col).KnownBounds (known col))

include agrees bounds

theorem recovered_interval {used : ℕ} {pci : RangeInterval (D used)}
    (regular : Regular metadata known (intervals (.interval used pci))) :
    Recovered metadata col (.interval used pci) := by
  intro e result q run row sat
  obtain ⟨proper, honest⟩ := regular_interval.mp regular
  obtain ⟨rfl, result⟩ := pexprScalar_interval result
  rw [Sat] at sat
  exact has_of_interval agrees proper bounds honest result run sat

theorem recovered_negated {used : ℕ} {pci : RangeInterval (D used)}
    (regular : Regular metadata known (intervals (.interval used pci))) :
    Recovered metadata col (.negation (.interval used pci)) := by
  intro e result q run row sat
  obtain ⟨proper, -⟩ := regular_interval.mp regular
  obtain ⟨rfl, complement, isComplement, result⟩ := pexprScalar_negated result
  obtain ⟨built, has⟩ := pciComplement_spec agrees bounds proper isComplement
  have honest := honest_complement agrees bounds proper isComplement
  rw [Sat, Sat, ← has] at sat
  exact has_of_interval agrees built bounds honest result run sat

theorem recovered_conjunction (regular : Regular metadata known (intervals (.conjunction children)))
    (datums : ∀ c ∈ children, DatumsKnown metadata known col c)
    (each : ∀ c ∈ children, Recovered metadata col c) :
    Recovered metadata col (.conjunction children) := by
  intro e result q run row sat
  rcases pexprScalar_junction true result with ⟨contradiction, rfl⟩ | ⟨exprs, made, rfl⟩
  · exact absurd sat (not_sat_of_contradiction _ regular contradiction)
  rw [sat_conjunction] at sat
  refine has_conj agrees bounds (datums_exprs made datums) run fun e mem p derived => ?_
  obtain ⟨c, listed, isExpr⟩ := child_of_expr made mem
  exact each c listed e isExpr p derived row (sat c listed)

theorem recovered_disjunction (regular : Regular metadata known (intervals (.disjunction children)))
    (datums : ∀ c ∈ children, DatumsKnown metadata known col c)
    (each : ∀ c ∈ children, Recovered metadata col c) :
    Recovered metadata col (.disjunction children) := by
  intro e result q run row sat
  rcases pexprScalar_junction false result with ⟨contradiction, rfl⟩ | ⟨exprs, made, rfl⟩
  · exact absurd sat (not_sat_of_contradiction _ regular contradiction)
  rw [sat_disjunction] at sat
  obtain ⟨c, listed, sat⟩ := sat
  obtain ⟨e, mem, isExpr⟩ := expr_of_child made listed
  exact has_disj agrees bounds (datums_exprs made datums) run mem fun p derived =>
    each c listed e isExpr p derived row sat

theorem recovered_negation (regular : Regular metadata known (intervals child))
    (recovers : NegationRecovers metadata col child)
    (made : pexprScalar metadata col (.negation child) =
      (pexprScalar metadata col child).map .boolNot) :
    Recovered metadata col (.negation child) := by
  intro e result q run row sat
  rw [made] at result
  obtain ⟨inner, isInner, rfl⟩ := Option.map_eq_some_iff.mp result
  have datums := datumsKnown agrees bounds child regular inner isInner
  rw [converted, pciIntervalFromScalarExpr, Bool.not_false] at run
  obtain ⟨p, derived, -, has⟩ := pciNot_spec agrees bounds run fun p derived =>
    proper_converted agrees bounds datums derived
  obtain ⟨complete, atNull⟩ := recovers inner isInner (fConverts_of_derived derived)
  rw [Sat] at sat
  rw [has]
  intro inside
  cases isValue : row col with
  | some v =>
    rw [isValue] at inside
    have constrainable : (metadata.column col).constrainable = true := constrainable_of_pciNot run
    exact sat ((exact_of_regular agrees bounds constrainable child regular inner isInner complete true
      p derived row v isValue).mp inside)
  | none =>
    rcases atNull with admitted | ⟨fits, isFalse⟩
    · exact sat (admitted row isValue)
    · rw [isValue] at inside
      have sound := (sound_expr agrees bounds inner true .emdindSentinel p derived datums).2 .lower
        fits none inside
      exact sound isFalse

omit agrees bounds

mutual

theorem recovered (agrees : (comp col).AgreesOn (known col))
    (bounds : (metadata.column col).KnownBounds (known col)) : (c : CConstraint D) →
    Regular metadata known (intervals c) → Recovers metadata col c → Recovered metadata col c
  | .interval used pci, regular, _ => recovered_interval agrees bounds regular
  | .conjunction children, regular, recovers =>
    recovered_conjunction agrees bounds regular (datumsKnownAll agrees bounds children regular)
      (allRecovered agrees bounds children regular recovers)
  | .disjunction children, regular, recovers =>
    recovered_disjunction agrees bounds regular (datumsKnownAll agrees bounds children regular)
      (allRecovered agrees bounds children regular recovers)
  | .negation (.interval used pci), regular, _ => recovered_negated agrees bounds regular
  | .negation (.negation child), regular, recovers => by
    intro e result q run row sat
    rw [pexprScalar] at result
    rw [Sat, Sat, not_not] at sat
    exact recovered agrees bounds child regular recovers e result q run row sat
  | .negation (.conjunction children), regular, recovers =>
    recovered_negation agrees bounds regular recovers (pexprScalar_not_junction true)
  | .negation (.disjunction children), regular, recovers =>
    recovered_negation agrees bounds regular recovers (pexprScalar_not_junction false)

theorem allRecovered (agrees : (comp col).AgreesOn (known col))
    (bounds : (metadata.column col).KnownBounds (known col)) :
    (children : List (CConstraint D)) → Regular metadata known (intervalsOf children) →
    AllRecover metadata col children → ∀ c ∈ children, Recovered metadata col c
  | [], _, _ => fun _ listed => absurd listed List.not_mem_nil
  | child :: rest, regular, recovers => by
    obtain ⟨first, later⟩ := regular_cons.mp regular
    exact List.forall_mem_cons.mpr ⟨recovered agrees bounds child first recovers.1,
      allRecovered agrees bounds rest later recovers.2⟩

end

end Recovery

end CConstraint
end Constraints
