import Tuuli.IntervalAgreement
import Tuuli.IntervalDerivation

/-!
The connectives of the derivation: which truth values count, and which values the intervals of a
conjunction, a disjunction and a negation have, in terms of the intervals of the parts.
-/
namespace Constraints
open TruthValues

section Counting
variable {inferNullsAs : Bool} {truth : Option Bool} {truths : List (Option Bool)}

theorem holds_neg : Holds inferNullsAs (neg truth) ↔ ¬ Holds (!inferNullsAs) truth := by
  cases inferNullsAs <;> rcases truth with - | (_ | _) <;> simp [Holds, neg]

theorem holds_some {b : Bool} : Holds inferNullsAs (some b) ↔ b = true := by
  cases inferNullsAs <;> simp [Holds]

theorem holds_false_iff : Holds false truth ↔ truth = some true := Iff.rfl

theorem holds_true_iff : Holds true truth ↔ truth ≠ some false := Iff.rfl

theorem holds_none : Holds inferNullsAs none ↔ inferNullsAs = true := by
  cases inferNullsAs <;> simp [Holds]

theorem holds_conj : Holds inferNullsAs (conj truths) ↔ ∀ t ∈ truths, Holds inferNullsAs t := by
  cases inferNullsAs with
  | false =>
    constructor
    · intro holds t member
      by_contra fails
      exact conj_ne_true member fails holds
    · exact conj_of_all_true
  | true =>
    constructor
    · rintro holds t member rfl
      exact holds (conj_of_mem_false member)
    · intro all isFalse
      unfold conj at isFalse
      split at isFalse
      · rename_i member
        exact all _ member rfl
      · split at isFalse <;> cases isFalse

theorem holds_disj : Holds inferNullsAs (disj truths) ↔ ∃ t ∈ truths, Holds inferNullsAs t := by
  cases inferNullsAs with
  | false =>
    constructor
    · intro holds
      by_contra none
      exact disj_ne_true (fun t member isTrue => none ⟨t, member, isTrue⟩) holds
    · rintro ⟨t, member, rfl⟩
      exact disj_of_mem_true member
  | true =>
    constructor
    · intro holds
      by_contra none
      refine holds (disj_of_all_false fun t member => ?_)
      by_contra differs
      exact none ⟨t, member, differs⟩
    · rintro ⟨t, member, counts⟩ isFalse
      unfold disj at isFalse
      split at isFalse
      · cases isFalse
      · split at isFalse
        · rename_i all
          exact counts (all t member)
        · cases isFalse

end Counting

section Unions
variable {D : Type} [LinearOrder D] [comp : CComparator (WithBot D)] {known : WithBot D → Prop}
  {pcis : List (RangeInterval D)}

omit [LinearOrder D] in
theorem length_unionPairs_le : (unionPairs pcis).length ≤ pcis.length := by
  fun_induction unionPairs pcis with
  | case1 pci1 pci2 rest ih =>
    simp only [List.length_cons]
    omega
  | case2 short => rfl

variable (agrees : comp.AgreesOn known)

include agrees

theorem unionPairs_spec (proper : ∀ pci ∈ pcis, pci.Proper known) :
    (∀ pci ∈ unionPairs pcis, pci.Proper known) ∧
      ∀ value, (∃ pci ∈ unionPairs pcis, pci.Has value) ↔ ∃ pci ∈ pcis, pci.Has value := by
  fun_induction unionPairs pcis with
  | case1 pci1 pci2 rest ih =>
    simp only [List.forall_mem_cons] at proper
    obtain ⟨first, second, later⟩ := proper
    obtain ⟨united, has⟩ := pciUnion_spec agrees first second
    obtain ⟨properRest, hasRest⟩ := ih later
    refine ⟨List.forall_mem_cons.mpr ⟨united, properRest⟩, fun value => ?_⟩
    simp only [List.mem_cons, exists_eq_or_imp, has, hasRest, or_assoc]
  | case2 short => exact ⟨proper, fun _ => Iff.rfl⟩

theorem unionRounds_spec {fuel : ℕ} (listed : pcis ≠ []) (enough : pcis.length ≤ fuel)
    (proper : ∀ pci ∈ pcis, pci.Proper known) :
    ∃ dest, unionRounds fuel pcis = some dest ∧ dest.Proper known ∧
      ∀ value, dest.Has value ↔ ∃ pci ∈ pcis, pci.Has value := by
  induction fuel generalizing pcis with
  | zero => exact absurd (List.length_eq_zero_iff.mp (by omega)) listed
  | succ fuel ih =>
    match pcis with
    | [] => exact absurd rfl listed
    | [pci] => exact ⟨pci, rfl, proper pci (List.mem_singleton_self pci), fun value => by simp⟩
    | pci1 :: pci2 :: rest =>
      have shorter : (unionPairs (pci1 :: pci2 :: rest)).length ≤ fuel := by
        have := @length_unionPairs_le D comp rest
        simp only [unionPairs, List.length_cons] at enough ⊢
        omega
      obtain ⟨united, same⟩ := unionPairs_spec agrees proper
      obtain ⟨dest, result, properDest, has⟩ := ih (List.cons_ne_nil _ _) shorter united
      exact ⟨dest, result, properDest, fun value => (has value).trans (same value)⟩

end Unions

section Connectives
variable {D : Type} [LinearOrder D] [comp : CComparator (WithBot D)] {known : WithBot D → Prop}
  {settings : Settings} {column : CColRef D} {inferNullsAs : Bool} {accessMethod : EmdindexType}
  {result : RangeInterval D} {first : CScalar D} {rest : List (CScalar D)}
  (agrees : comp.AgreesOn known)

include agrees

theorem pciAnd_spec {pci pciChild : Option (RangeInterval D)}
    (proper : ∀ p ∈ pci, p.Proper known) (properChild : ∀ p ∈ pciChild, p.Proper known) :
    (∀ p ∈ pciAnd pci pciChild, p.Proper known) ∧
      ∀ value, (∀ p ∈ pciAnd pci pciChild, p.Has value) ↔
        (∀ p ∈ pci, p.Has value) ∧ ∀ p ∈ pciChild, p.Has value := by
  cases pci with
  | none =>
    cases pciChild with
    | none => simp [pciAnd]
    | some child => simpa [pciAnd] using properChild
  | some pci =>
    cases pciChild with
    | none => simpa [pciAnd] using proper
    | some child =>
      obtain ⟨shared, has⟩ := pciIntersect_spec agrees (proper pci rfl) (properChild child rfl)
      simpa [pciAnd, has] using shared

/-- The loop over the conjuncts intersects the intervals of those that have one. -/
theorem conjuncts_spec {pci : Option (RangeInterval D)} {derived : Option (RangeInterval D)}
    (run : pciIntervalFromScalarBoolAnd settings column inferNullsAs accessMethod pci rest =
      some derived) (proper : ∀ p ∈ pci, p.Proper known)
    (children : ∀ child ∈ rest, ∀ p, pciIntervalFromScalarExpr settings column inferNullsAs
      accessMethod child = some (some p) → p.Proper known) :
    (∀ p ∈ derived, p.Proper known) ∧
    (∀ child ∈ rest, ∃ d,
      pciIntervalFromScalarExpr settings column inferNullsAs accessMethod child = some d) ∧
    (∀ value, (∀ p ∈ derived, p.Has value) ↔ (∀ p ∈ pci, p.Has value) ∧
      ∀ child ∈ rest, ∀ p, pciIntervalFromScalarExpr settings column inferNullsAs accessMethod
        child = some (some p) → p.Has value) := by
  induction rest generalizing pci with
  | nil =>
    rw [pciIntervalFromScalarBoolAnd] at run
    cases run
    exact ⟨proper, by simp, by simp⟩
  | cons child rest ih =>
    rw [pciIntervalFromScalarBoolAnd] at run
    obtain ⟨here, later⟩ := List.forall_mem_cons.mp children
    split at run
    · cases run
    · rename_i pciChild isChild
      have properChild : ∀ p ∈ pciChild, p.Proper known := by
        rintro p rfl
        exact here p isChild
      obtain ⟨next, has⟩ := pciAnd_spec agrees proper properChild
      obtain ⟨built, derivable, hasAll⟩ := ih run next later
      refine ⟨built, List.forall_mem_cons.mpr ⟨⟨pciChild, isChild⟩, derivable⟩, fun value => ?_⟩
      rw [hasAll, has, List.forall_mem_cons, isChild]
      simp [and_assoc]

theorem boolAnd_spec (run : pciIntervalFromScalarExpr settings column inferNullsAs accessMethod
      (.boolAnd first rest) = some (some result))
    (children : ∀ child ∈ first :: rest, ∀ p, pciIntervalFromScalarExpr settings column
      inferNullsAs accessMethod child = some (some p) → p.Proper known) :
    result.Proper known ∧
    (∀ child ∈ first :: rest, ∃ d,
      pciIntervalFromScalarExpr settings column inferNullsAs accessMethod child = some d) ∧
    ∀ value, result.Has value ↔ ∀ child ∈ first :: rest, ∀ p, pciIntervalFromScalarExpr settings
      column inferNullsAs accessMethod child = some (some p) → p.Has value := by
  rw [pciIntervalFromScalarExpr] at run
  obtain ⟨here, later⟩ := List.forall_mem_cons.mp children
  split at run
  · cases run
  · rename_i pci isFirst
    have proper : ∀ p ∈ pci, p.Proper known := by
      rintro p rfl
      exact here p isFirst
    obtain ⟨built, derivable, has⟩ := conjuncts_spec agrees run proper later
    refine ⟨built result rfl, List.forall_mem_cons.mpr ⟨⟨pci, isFirst⟩, derivable⟩, fun value => ?_⟩
    have whole := has value
    rw [List.forall_mem_cons, isFirst]
    simpa using whole

omit agrees in
theorem disjuncts_cases {pcis : List (RangeInterval D)}
    (run : pciIntervalFromScalarBoolOr settings column inferNullsAs accessMethod rest =
      some (some pcis)) :
    (∀ child ∈ rest, ∃ p ∈ pcis,
      pciIntervalFromScalarExpr settings column inferNullsAs accessMethod child = some (some p)) ∧
    ∀ p ∈ pcis, ∃ child ∈ rest,
      pciIntervalFromScalarExpr settings column inferNullsAs accessMethod child =
        some (some p) := by
  induction rest generalizing pcis with
  | nil =>
    rw [pciIntervalFromScalarBoolOr] at run
    cases run
    simp
  | cons child rest ih =>
    rw [pciIntervalFromScalarBoolOr] at run
    split at run
    · cases run
    · cases run
    · rename_i pci isChild
      split at run
      · cases run
      · cases run
      · rename_i more isRest
        cases run
        obtain ⟨forward, back⟩ := ih isRest
        constructor
        · intro c listed
          rcases List.mem_cons.mp listed with rfl | later
          · exact ⟨pci, List.mem_cons_self, isChild⟩
          · obtain ⟨p, mem, derived⟩ := forward c later
            exact ⟨p, List.mem_cons_of_mem pci mem, derived⟩
        · intro p listed
          rcases List.mem_cons.mp listed with rfl | later
          · exact ⟨child, List.mem_cons_self, isChild⟩
          · obtain ⟨c, mem, derived⟩ := back p later
            exact ⟨c, List.mem_cons_of_mem child mem, derived⟩

theorem boolOr_spec (run : pciIntervalFromScalarExpr settings column inferNullsAs accessMethod
      (.boolOr first rest) = some (some result))
    (children : ∀ child ∈ first :: rest, ∀ p, pciIntervalFromScalarExpr settings column
      inferNullsAs accessMethod child = some (some p) → p.Proper known) :
    result.Proper known ∧
    (∀ child ∈ first :: rest, ∃ p, pciIntervalFromScalarExpr settings column inferNullsAs
      accessMethod child = some (some p)) ∧
    ∀ value, result.Has value ↔ ∃ child ∈ first :: rest, ∃ p, pciIntervalFromScalarExpr settings
      column inferNullsAs accessMethod child = some (some p) ∧ p.Has value := by
  rw [pciIntervalFromScalarExpr] at run
  split at run
  · cases run
  · cases run
  rename_i pci isFirst
  split at run
  · cases run
  · cases run
  rename_i pcis isRest
  obtain ⟨forward, back⟩ := disjuncts_cases isRest
  have proper : ∀ p ∈ pci :: pcis, p.Proper known := by
    intro p listed
    rcases List.mem_cons.mp listed with rfl | later
    · exact children first List.mem_cons_self p isFirst
    · obtain ⟨child, mem, derived⟩ := back p later
      exact children child (List.mem_cons_of_mem first mem) p derived
  obtain ⟨dest, united, properDest, has⟩ :=
    unionRounds_spec agrees (List.cons_ne_nil pci pcis) le_rfl proper
  rw [List.length_cons] at united
  rw [united] at run
  cases run
  refine ⟨properDest, ?_, fun value => (has value).trans ?_⟩
  · refine List.forall_mem_cons.mpr ⟨⟨pci, isFirst⟩, fun child mem => ?_⟩
    obtain ⟨p, -, derived⟩ := forward child mem
    exact ⟨p, derived⟩
  · constructor
    · rintro ⟨p, listed, holds⟩
      rcases List.mem_cons.mp listed with rfl | later
      · exact ⟨first, List.mem_cons_self, p, isFirst, holds⟩
      · obtain ⟨child, mem, derived⟩ := back p later
        exact ⟨child, List.mem_cons_of_mem first mem, p, derived, holds⟩
    · rintro ⟨child, listed, p, derived, holds⟩
      rcases List.mem_cons.mp listed with rfl | later
      · rw [isFirst] at derived
        cases derived
        exact ⟨pci, List.mem_cons_self, holds⟩
      · obtain ⟨q, mem, same⟩ := forward child later
        rw [same] at derived
        cases derived
        exact ⟨p, List.mem_cons_of_mem pci mem, holds⟩

theorem pciNot_spec {derived : Derived D} (bounds : column.KnownBounds known)
    (run : pciNot column derived = some (some result))
    (proper : ∀ p, derived = some (some p) → p.Proper known) :
    ∃ p, derived = some (some p) ∧ result.Proper known ∧
      ∀ value, result.Has value ↔ ¬ p.Has value := by
  unfold pciNot at run
  split at run
  · cases run
  · cases run
  · rename_i p
    obtain ⟨complement, isComplement, same⟩ := Option.map_eq_some_iff.mp run
    cases same
    obtain ⟨built, has⟩ := pciComplement_spec agrees bounds (proper p rfl) isComplement
    exact ⟨p, rfl, built, has⟩

end Connectives

end Constraints
