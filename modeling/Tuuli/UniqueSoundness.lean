import Tuuli.BagKeys
import Tuuli.JoinLaws
import Tuuli.TruthValues
import Tuuli.UniqueProofs

/-!
What a proof of uniqueness means for the rows: no two rows agree on the columns,
where values agree if the equality of the column's type holds, and NULLs agree. A
column that an equality fixes or connects has one value in the sense of that
equality; a proof is sound if for each equality it uses this is one value for the
column's type, and each other equality misleads the search on some expression.
-/
namespace UniqueAttrs
open BagJoins BagKeys TruthValues

variable {Col Typ Op V : Type}

/-- The meaning of comparisons on values, the equality of each type, and the casts that
    compute a value. -/
structure Meaning (Typ Op V : Type) where
  holds : Op → V → V → Bool
  same : Typ → V → V → Prop
  same_equivalence : ∀ typ, Equivalence (same typ)
  cast : Typ → Typ → V → Option V

/-- The rows of the other expressions, and the meaning of other scalars and predicates. -/
structure Database (Col V : Type) where
  rows : ℕ → Multiset (Row Col V)
  scalar : ℕ → Row Col V → Option V
  pred : ℕ → Row Col V → Option Bool

section Evaluation
variable (catalog : Catalog Col Typ Op) (meaning : Meaning Typ Op V) (db : Database Col V)

def Scalar.eval : Scalar Col Typ V → Row Col V → Option V
  | .ident col, row => row col
  | .const _ datum, _ => datum
  | .cast target child, row =>
    if catalog.isBinaryCoercible (child.typ catalog) target then child.eval row
    else (child.eval row).bind (meaning.cast (child.typ catalog) target)
  | .other _ id, row => db.scalar id row

mutual

def Pred.eval : Pred Col Typ Op V → Row Col V → Option Bool
  | .and children, row => conj (evalAll children row)
  | .cmp op left right, row =>
    match left.eval catalog meaning db row, right.eval catalog meaning db row with
    | some a, some b => some (meaning.holds op a b)
    | _, _ => none
  | .other id, row => db.pred id row

def evalAll : List (Pred Col Typ Op V) → Row Col V → List (Option Bool)
  | [], _ => []
  | child :: rest, row => child.eval row :: evalAll rest row

end

def CExpression.eval : CExpression Col Typ Op V → Multiset (Row Col V)
  | .select child pred => child.eval.filter fun row => pred.eval catalog meaning db row = some true
  | .innerJoin left right pred =>
    leftJoin .inner (pred.eval catalog meaning db) left.eval right.eval
  | .leftOuterJoin left right pred =>
    leftJoin .outer (pred.eval catalog meaning db) left.eval right.eval
  | .other id => db.rows id

end Evaluation

/-! ### Agreement -/

def AgreeValues (same : V → V → Prop) : Option V → Option V → Prop
  | some a, some b => same a b
  | none, none => True
  | _, _ => False

section Agreement
variable (catalog : Catalog Col Typ Op) (meaning : Meaning Typ Op V)

def AgreeAt (col : Col) (r s : Row Col V) : Prop :=
  AgreeValues (meaning.same (catalog.colType col)) (r col) (s col)

def Agree (cols : Finset Col) (r s : Row Col V) : Prop :=
  ∀ col ∈ cols, AgreeAt catalog meaning col r s

end Agreement

/-! ### Well-formed expressions and correct derivations -/

section Conditions
variable (catalog : Catalog Col Typ Op)

mutual

def Pred.WellTyped : Pred Col Typ Op V → Prop
  | .and children => AllWellTyped children
  | .cmp op left right =>
    left.typ catalog = catalog.leftType op ∧ right.typ catalog = catalog.rightType op
  | .other _ => True

def AllWellTyped : List (Pred Col Typ Op V) → Prop
  | [] => True
  | child :: rest => child.WellTyped ∧ AllWellTyped rest

end

variable [DecidableEq Col] (derived : Derived Col Typ Op V)

def CExpression.WellFormed : CExpression Col Typ Op V → Prop
  | .select child pred => child.WellFormed ∧ pred.WellTyped catalog
  | .innerJoin left right pred | .leftOuterJoin left right pred =>
    left.WellFormed ∧ right.WellFormed ∧ pred.WellTyped catalog ∧
      Disjoint (deriveOutputColumns derived left) (deriveOutputColumns derived right)
  | .other _ => True

variable (meaning : Meaning Typ Op V)

/-- The derived properties hold in the database: rows have the output columns only, no two rows
    agree on a key, and no expression has more rows than its maximum cardinality. -/
structure Derived.Correct (db : Database Col V) : Prop where
  columns : ∀ id, BagWithin (derived.outputColumns id) (db.rows id)
  keys : ∀ id keys, derived.keyCollection id = some keys → ∀ key ∈ keys,
    Apart (Agree catalog meaning key.toFinset) (db.rows id)
  cards : ∀ expr : CExpression Col Typ Op V,
    (expr.eval catalog meaning db).card ≤ derived.maxCard expr

def Takes (col : Col) (typ : Typ) : Prop :=
  catalog.colType col = typ ∨ catalog.isBinaryCoercible (catalog.colType col) typ = true

/-- Values of the column that the equality compares equal to one value are equal for the column's
    type. -/
def Refines : Trust Op Col
  | op, .left, col => ∀ a b c, meaning.holds op a c = true → meaning.holds op b c = true →
      meaning.same (catalog.colType col) a b
  | op, .right, col => ∀ a b c, meaning.holds op c a = true → meaning.holds op c b = true →
      meaning.same (catalog.colType col) a b

end Conditions

/-! ### Columns with one value -/

section Soundness
variable {catalog : Catalog Col Typ Op} {meaning : Meaning Typ Op V} {db : Database Col V}
  {scalar left right : Scalar Col Typ V} {col : Col} {op : Op} {row r s : Row Col V}

theorem Scalar.eval_of_operand (operand : scalar.pcrEqualityOperand catalog = some col)
    (row : Row Col V) : scalar.eval catalog meaning db row = row col := by
  match scalar with
  | .ident _ =>
    cases operand
    rfl
  | .cast target (.ident read) =>
    simp only [pcrEqualityOperand] at operand
    split at operand
    next relabels =>
      cases operand
      rw [eval, typ, if_pos relabels, eval]
    next => cases operand

theorem Scalar.eval_of_fConst (const : scalar.fConst catalog = true) (r s : Row Col V) :
    scalar.eval catalog meaning db r = scalar.eval catalog meaning db s := by
  match scalar with
  | .const _ _ => rfl
  | .cast target (.const typ datum) => rfl

theorem Pred.eval_cmp_true
    (holds : (Pred.cmp op left right).eval catalog meaning db row = some true) :
    ∃ a b, left.eval catalog meaning db row = some a ∧
      right.eval catalog meaning db row = some b ∧ meaning.holds op a b = true := by
  rw [eval] at holds
  split at holds
  next a b first second => exact ⟨a, b, first, second, Option.some.inj holds⟩
  next => cases holds

theorem agreeAt_left (refines : Refines catalog meaning op .left col)
    (operand : left.pcrEqualityOperand catalog = some col)
    (fixed : right.eval catalog meaning db r = right.eval catalog meaning db s)
    (first : (Pred.cmp op left right).eval catalog meaning db r = some true)
    (second : (Pred.cmp op left right).eval catalog meaning db s = some true) :
    AgreeAt catalog meaning col r s := by
  obtain ⟨a, c, leftFirst, rightFirst, holds⟩ := Pred.eval_cmp_true first
  obtain ⟨b, c', leftSecond, rightSecond, holds'⟩ := Pred.eval_cmp_true second
  rw [rightFirst, rightSecond] at fixed
  cases fixed
  rw [Scalar.eval_of_operand operand] at leftFirst leftSecond
  rw [AgreeAt, leftFirst, leftSecond]
  exact refines a b c holds holds'

theorem agreeAt_right (refines : Refines catalog meaning op .right col)
    (operand : right.pcrEqualityOperand catalog = some col)
    (fixed : left.eval catalog meaning db r = left.eval catalog meaning db s)
    (first : (Pred.cmp op left right).eval catalog meaning db r = some true)
    (second : (Pred.cmp op left right).eval catalog meaning db s = some true) :
    AgreeAt catalog meaning col r s := by
  obtain ⟨c, a, leftFirst, rightFirst, holds⟩ := Pred.eval_cmp_true first
  obtain ⟨c', b, leftSecond, rightSecond, holds'⟩ := Pred.eval_cmp_true second
  rw [leftFirst, leftSecond] at fixed
  cases fixed
  rw [Scalar.eval_of_operand operand] at rightFirst rightSecond
  rw [AgreeAt, rightFirst, rightSecond]
  exact refines a b c holds holds'

theorem eval_of_conj_true {children : List (Pred Col Typ Op V)}
    (holds : (Pred.and children).eval catalog meaning db row = some true) :
    ∀ truth ∈ evalAll catalog meaning db children row, truth = some true := by
  intro truth mem
  by_contra other
  rw [Pred.eval] at holds
  exact conj_ne_true mem other holds

variable {cmp : Comparison Col Typ Op V}

mutual

theorem comparison_true (pred : Pred Col Typ Op V)
    (holds : pred.eval catalog meaning db row = some true) (listed : cmp ∈ pred.comparisons) :
    (Pred.cmp cmp.op cmp.left cmp.right).eval catalog meaning db row = some true := by
  cases pred with
  | and children =>
    rw [Pred.comparisons] at listed
    exact comparisonAll_true children (eval_of_conj_true holds) listed
  | cmp op left right =>
    obtain rfl := List.mem_singleton.mp listed
    exact holds
  | other id => cases listed

theorem comparisonAll_true (children : List (Pred Col Typ Op V))
    (holds : ∀ truth ∈ evalAll catalog meaning db children row, truth = some true)
    (listed : cmp ∈ comparisonsAll children) :
    (Pred.cmp cmp.op cmp.left cmp.right).eval catalog meaning db row = some true := by
  cases children with
  | nil => cases listed
  | cons child rest =>
    rw [evalAll] at holds
    rcases List.mem_append.mp listed with here | later
    · exact comparison_true child (holds _ List.mem_cons_self) here
    · exact comparisonAll_true rest (fun truth mem => holds truth (List.mem_cons_of_mem _ mem)) later

end

theorem agreeAt_of_fixes (fixes : cmp.Fixes catalog (Refines catalog meaning) col)
    (first : (Pred.cmp cmp.op cmp.left cmp.right).eval catalog meaning db r = some true)
    (second : (Pred.cmp cmp.op cmp.left cmp.right).eval catalog meaning db s = some true) :
    AgreeAt catalog meaning col r s := by
  obtain ⟨-, ⟨const, operand, refines⟩ | ⟨const, operand, refines⟩⟩ := fixes
  · exact agreeAt_right refines operand (Scalar.eval_of_fConst const r s) first second
  · exact agreeAt_left refines operand (Scalar.eval_of_fConst const r s) first second

theorem agreeAt_of_connects {joined : Finset Col} (same : ∀ col ∈ joined, r col = s col)
    (connects : cmp.Connects catalog (Refines catalog meaning) joined col)
    (first : (Pred.cmp cmp.op cmp.left cmp.right).eval catalog meaning db r = some true)
    (second : (Pred.cmp cmp.op cmp.left cmp.right).eval catalog meaning db s = some true) :
    AgreeAt catalog meaning col r s := by
  obtain ⟨-, other, inside, ⟨operand, known, refines⟩ | ⟨operand, known, refines⟩⟩ := connects
  · refine agreeAt_left refines operand ?_ first second
    rw [Scalar.eval_of_operand known, Scalar.eval_of_operand known, same other inside]
  · refine agreeAt_right refines operand ?_ first second
    rw [Scalar.eval_of_operand known, Scalar.eval_of_operand known, same other inside]

variable [DecidableEq Col]

/-! ### Soundness -/

variable {derived : Derived Col Typ Op V}

theorem Derived.Correct.bagWithin (correct : derived.Correct catalog meaning db) :
    ∀ expr : CExpression Col Typ Op V,
      BagWithin (deriveOutputColumns derived expr) (expr.eval catalog meaning db)
  | .select child _ => fun row mem =>
    correct.bagWithin child row (Multiset.mem_of_mem_filter mem)
  | .innerJoin left right _ => by
    rw [deriveOutputColumns, Finset.coe_union]
    exact leftJoin_within (correct.bagWithin left) (correct.bagWithin right)
  | .leftOuterJoin left right _ => by
    rw [deriveOutputColumns, Finset.coe_union]
    exact leftJoin_within (correct.bagWithin left) (correct.bagWithin right)
  | .other id => correct.columns id

omit [DecidableEq Col] in
theorem CExpression.eval_le_keySource (expr : CExpression Col Typ Op V) :
    expr.eval catalog meaning db ≤ expr.keySource.eval catalog meaning db := by
  induction expr with
  | select child pred ih => exact (Multiset.filter_le _ _).trans ih
  | innerJoin left right pred _ _ => exact le_refl _
  | leftOuterJoin left right pred _ _ => exact le_refl _
  | other id => exact le_refl _

omit [DecidableEq Col] in
theorem filter_true {expr : CExpression Col Typ Op V} {pred : Pred Col Typ Op V}
    (mem : row ∈ expr.eval catalog meaning db) (listed : pred ∈ expr.filters) :
    pred.eval catalog meaning db row = some true := by
  induction expr with
  | select child here ih =>
    obtain ⟨below, holds⟩ := Multiset.mem_filter.mp mem
    rcases List.mem_cons.mp listed with rfl | later
    · exact holds
    · exact ih below later
  | innerJoin left right here _ _ => cases listed
  | leftOuterJoin left right here _ _ => cases listed
  | other id => cases listed

omit [DecidableEq Col] in
theorem agreeAt_of_filterFixes {expr : CExpression Col Typ Op V}
    (fixes : FilterFixes catalog (Refines catalog meaning) expr col)
    (first : r ∈ expr.eval catalog meaning db) (second : s ∈ expr.eval catalog meaning db) :
    AgreeAt catalog meaning col r s := by
  obtain ⟨pred, listed, cmp, compared, fixes⟩ := fixes
  exact agreeAt_of_fixes fixes (comparison_true pred (filter_true first listed) compared)
    (comparison_true pred (filter_true second listed) compared)

theorem CExpression.WellFormed.keySource {expr : CExpression Col Typ Op V}
    (formed : expr.WellFormed catalog derived) : expr.keySource.WellFormed catalog derived := by
  induction expr with
  | select child pred ih => exact ih formed.1
  | innerJoin left right pred _ _ => exact formed
  | leftOuterJoin left right pred _ _ => exact formed
  | other id => exact formed

omit [DecidableEq Col] in
theorem concat_eq_left {A B : Finset Col} {r s : Row Col V} (disjoint : Disjoint A B)
    (within : Within B s) {col : Col} (mem : col ∈ A) : concat r s col = r col := by
  have empty : s col = none := within col (Finset.disjoint_left.mp disjoint mem)
  rw [concat, empty, Option.or_none]

omit [DecidableEq Col] in
theorem concat_eq_right {A B : Finset Col} {r s : Row Col V} (disjoint : Disjoint A B)
    (within : Within A r) {col : Col} (mem : col ∈ B) : concat r s col = s col := by
  have empty : r col = none := within col (Finset.disjoint_right.mp disjoint mem)
  rw [concat, empty, Option.none_or]

theorem agree_of_partners {A B : Finset Col} (disjoint : Disjoint A B)
    {pred : Pred Col Typ Op V} {S : Multiset (Row Col V)} (within : BagWithin B S)
    {r s s' : Row Col V} (anchor : Within A r)
    (first : s ∈ partners (pred.eval catalog meaning db) S r)
    (second : s' ∈ partners (pred.eval catalog meaning db) S r) :
    Agree catalog meaning (connectedColumns catalog (Refines catalog meaning) B A pred) s s' := by
  classical
  intro col mem
  obtain ⟨collected, cmp, compared, connects⟩ := Finset.mem_filter.mp mem
  obtain ⟨inside, holds⟩ := Multiset.mem_filter.mp first
  obtain ⟨inside', holds'⟩ := Multiset.mem_filter.mp second
  have same : ∀ col ∈ A, concat r s col = concat r s' col := by
    intro col mem
    rw [concat_eq_left disjoint (within s inside) mem,
      concat_eq_left disjoint (within s' inside') mem]
  have agree := agreeAt_of_connects same connects (comparison_true pred holds compared)
    (comparison_true pred holds' compared)
  rcases connects_of_mem pred collected with none | ⟨listed, -⟩
  · exact absurd none (Finset.notMem_empty col)
  · rwa [AgreeAt, concat_eq_right disjoint anchor listed, concat_eq_right disjoint anchor listed]
      at agree

theorem apart_anchored {A B attrs : Finset Col} (disjoint : Disjoint A B)
    {pred : Pred Col Typ Op V} {k : LeftJoin} (emits : k = .inner ∨ k = .outer)
    {R S : Multiset (Row Col V)} (withinR : BagWithin A R) (withinS : BagWithin B S)
    (anchor : Apart (Agree catalog meaning (attrs ∩ A)) R)
    (other : Apart (Agree catalog meaning
      (connectedColumns catalog (Refines catalog meaning) B A pred)) S) :
    Apart (Agree catalog meaning attrs) (leftJoin k (pred.eval catalog meaning db) R S) := by
  apply apart_leftJoin emits anchor
  · intro r mem
    apply (other.of_le (Multiset.filter_le _ S)).card_le_one
    intro s first s' second
    exact agree_of_partners disjoint withinS (withinR r mem) first second
  · intro r _ r' _ s found s' found' agree col mem
    obtain ⟨given, inside⟩ := Finset.mem_inter.mp mem
    have whole := agree col given
    rwa [AgreeAt, concat_eq_left disjoint (appended_within withinS found) inside,
      concat_eq_left disjoint (appended_within withinS found') inside] at whole

theorem Proves.apart {expr : CExpression Col Typ Op V} {attrs : Finset Col}
    (proves : Proves catalog (Refines catalog meaning) derived expr attrs)
    (formed : expr.WellFormed catalog derived) (correct : derived.Correct catalog meaning db) :
    Apart (Agree catalog meaning attrs) (expr.eval catalog meaning db) := by
  induction proves with
  | card inside few => exact apart_of_card_le_one ((correct.cards _).trans few)
  | @key expr attrs id keys key inside source collection listed nonempty covered =>
    have le : expr.eval catalog meaning db ≤ _ := expr.eval_le_keySource
    rw [source] at le
    apply ((correct.keys _ _ collection _ listed).of_le le).imp
    intro r first s second agree col mem
    rcases covered col (List.mem_toFinset.mp mem) with given | fixed
    · exact agree col given
    · exact agreeAt_of_filterFixes fixed first second
  | anchorLeft inside source some anchor other ihAnchor ihOther =>
    apply Apart.of_le _ (CExpression.eval_le_keySource _)
    have formed := formed.keySource
    rcases source with source | source
    · rw [source] at formed ⊢
      obtain ⟨formedLeft, formedRight, -, disjoint⟩ := formed
      exact apart_anchored disjoint (.inl rfl) (correct.bagWithin _) (correct.bagWithin _)
        (ihAnchor formedLeft) (ihOther formedRight)
    · rw [source] at formed ⊢
      obtain ⟨formedLeft, formedRight, -, disjoint⟩ := formed
      exact apart_anchored disjoint (.inr rfl) (correct.bagWithin _) (correct.bagWithin _)
        (ihAnchor formedLeft) (ihOther formedRight)
  | anchorRight inside source some anchor other ihAnchor ihOther =>
    apply Apart.of_le _ (CExpression.eval_le_keySource _)
    have formed := formed.keySource
    rw [source] at formed ⊢
    obtain ⟨formedLeft, formedRight, -, disjoint⟩ := formed
    rw [CExpression.eval, leftJoin_inner_comm (Finset.disjoint_coe.mpr disjoint)
      (correct.bagWithin _) (correct.bagWithin _)]
    exact apart_anchored disjoint.symm (.inl rfl) (correct.bagWithin _) (correct.bagWithin _)
      (ihAnchor formedRight) (ihOther formedLeft)

/-- What the search finds it finds from such equalities if the expression has no others. -/
theorem proves_of_comparisons_refine {expr : CExpression Col Typ Op V} {attrs : Finset Col}
    (refine : ∀ cmp ∈ expr.comparisons, cmp.Trusted catalog (Refines catalog meaning))
    (found : fExpressionUniqueOnAttrs catalog derived expr attrs = true) :
    Proves catalog (Refines catalog meaning) derived expr attrs :=
  (fExpressionUniqueOnAttrs_iff.mp found).of_trusted refine

/-- What the search finds unique is unique if it has a proof from equalities that distinguish what
    the types of their columns distinguish. -/
theorem unique_on_attrs_sound (catalog : Catalog Col Typ Op) (meaning : Meaning Typ Op V)
    (derived : Derived Col Typ Op V) (expr : CExpression Col Typ Op V) (attrs : Finset Col)
    (formed : expr.WellFormed catalog derived)
    (refined : fExpressionUniqueOnAttrs catalog derived expr attrs = true →
      Proves catalog (Refines catalog meaning) derived expr attrs) :
    fExpressionUniqueOnAttrs catalog derived expr attrs = true →
      ∀ db : Database Col V, derived.Correct catalog meaning db →
        Apart (Agree catalog meaning attrs) (expr.eval catalog meaning db) :=
  fun found _ correct => (refined found).apart formed correct

/-! ### A table with two rows under a key of one column -/

def keyedRow (col : Col) (value : V) : Row Col V :=
  fun other => if other = col then some value else none

def keyedDatabase (col : Col) (a b : V) : Database Col V where
  rows _ := {keyedRow col a, keyedRow col b}
  scalar _ _ := none
  pred _ _ := none

def keyedDerived (catalog : Catalog Col Typ Op) (meaning : Meaning Typ Op V) (col : Col) (a b : V) :
    Derived Col Typ Op V where
  outputColumns _ := {col}
  keyCollection _ := some [[col]]
  maxCard expr := (expr.eval catalog meaning (keyedDatabase col a b)).card

variable {a b : V}

theorem agreeAt_keyedRow (agree : AgreeAt catalog meaning col (keyedRow col a) (keyedRow col b)) :
    meaning.same (catalog.colType col) a b := by
  simp only [AgreeAt, keyedRow, if_true] at agree
  exact agree

theorem keyedDerived_correct (different : ¬ meaning.same (catalog.colType col) a b) :
    (keyedDerived catalog meaning col a b).Correct catalog meaning (keyedDatabase col a b) where
  columns _ row mem other outside := by
    have away : other ≠ col := fun same => outside (by simp [keyedDerived, same])
    have either : row = keyedRow col a ∨ row = keyedRow col b := by
      simpa [keyedDatabase] using mem
    rcases either with rfl | rfl <;> exact if_neg away
  keys _ keys collection key listed := by
    cases collection
    cases List.mem_singleton.mp listed
    refine ⟨[keyedRow col a, keyedRow col b], rfl, List.pairwise_pair.mpr ?_⟩
    intro agree
    exact different (agreeAt_keyedRow (agree col (by simp)))
  cards _ := le_refl _

def Misled (catalog : Catalog Col Typ Op) (meaning : Meaning Typ Op V)
    (expr : CExpression Col Typ Op V) : Prop :=
  ∃ (derived : Derived Col Typ Op V) (attrs : Finset Col) (db : Database Col V),
    expr.WellFormed catalog derived ∧ fExpressionUniqueOnAttrs catalog derived expr attrs = true ∧
    derived.Correct catalog meaning db ∧
    ¬ Apart (Agree catalog meaning attrs) (expr.eval catalog meaning db)

theorem misled_of_fixes (different : ¬ meaning.same (catalog.colType col) a b)
    (pred : Pred Col Typ Op V) (fixes : fPredicateFixesColumn catalog col pred = true)
    (typed : pred.WellTyped catalog)
    (first : pred.eval catalog meaning (keyedDatabase col a b) (keyedRow col a) = some true)
    (second : pred.eval catalog meaning (keyedDatabase col a b) (keyedRow col b) = some true) :
    Misled catalog meaning (.select (.other 0) pred) := by
  refine ⟨keyedDerived catalog meaning col a b, ∅, keyedDatabase col a b, ⟨trivial, typed⟩, ?_,
    keyedDerived_correct different, fun apart => ?_⟩
  · simp [fExpressionUniqueOnAttrs, concludes, keySourceUnique, keyedDerived,
      fAttrsAndFixedColumnsCoverKey, fFilterFixesColumn, fixes]
  have both : (CExpression.select (.other 0) pred).eval catalog meaning
      (keyedDatabase col a b) = {keyedRow col a, keyedRow col b} := by
    rw [CExpression.eval, CExpression.eval]
    apply Multiset.filter_eq_self.mpr
    intro row mem
    have either : row = keyedRow col a ∨ row = keyedRow col b := by
      simpa [keyedDatabase] using mem
    rcases either with rfl | rfl
    · exact first
    · exact second
  have few := apart.card_le_one fun _ _ _ _ col mem => absurd mem (Finset.notMem_empty col)
  rw [both] at few
  simp at few

omit [DecidableEq Col] in
theorem Takes.exists_operand {col : Col} {typ : Typ} (takes : Takes catalog col typ) :
    ∃ scalar : Scalar Col Typ V,
      scalar.pcrEqualityOperand catalog = some col ∧ scalar.typ catalog = typ := by
  rcases takes with same | relabels
  · exact ⟨.ident col, rfl, same⟩
  · exact ⟨.cast typ (.ident col), if_pos relabels, rfl⟩

/-- An equality that does not refine the equality of a column it can be applied to misleads the
    search on a selection that compares the column with a constant. -/
theorem exists_misled (equality : catalog.isEquality op = true)
    (coarse : (Takes catalog col (catalog.leftType op) ∧ ¬ Refines catalog meaning op .left col) ∨
      (Takes catalog col (catalog.rightType op) ∧ ¬ Refines catalog meaning op .right col)) :
    ∃ left right, Misled catalog meaning (.select (.other 0) (.cmp op left right)) := by
  rcases coarse with ⟨takes, coarse⟩ | ⟨takes, coarse⟩
  all_goals
    obtain ⟨scalar, operand, typed⟩ := @Takes.exists_operand _ _ _ V _ _ _ takes
    simp only [Refines, not_forall] at coarse
    obtain ⟨a, b, c, first, second, different⟩ := coarse
  · refine ⟨scalar, .const (catalog.rightType op) (some c),
      misled_of_fixes different _ ?_ ⟨typed, rfl⟩ ?_ ?_⟩
    · simp [fPredicateFixesColumn, equality, operand, Scalar.fConst]
    · simp [Pred.eval, Scalar.eval_of_operand operand, Scalar.eval, keyedRow, first]
    · simp [Pred.eval, Scalar.eval_of_operand operand, Scalar.eval, keyedRow, second]
  · refine ⟨.const (catalog.leftType op) (some c), scalar,
      misled_of_fixes different _ ?_ ⟨rfl, typed⟩ ?_ ?_⟩
    · simp [fPredicateFixesColumn, equality, operand, Scalar.fConst]
    · simp [Pred.eval, Scalar.eval_of_operand operand, Scalar.eval, keyedRow, first]
    · simp [Pred.eval, Scalar.eval_of_operand operand, Scalar.eval, keyedRow, second]

end Soundness

/-! ### Two text types with a cast that relabels -/

inductive TextType where
  | varchar
  | bpchar
  deriving DecidableEq, Repr

abbrev Text := List Char

/-- Trailing blanks are not significant for `bpchar`. -/
def trimmed (text : Text) : Text := (text.reverse.dropWhile (· = ' ')).reverse

def TextType.same : TextType → Text → Text → Prop
  | .varchar, a, b => a = b
  | .bpchar, a, b => trimmed a = trimmed b

instance (typ : TextType) (a b : Text) : Decidable (typ.same a b) := by
  cases typ <;> exact inferInstanceAs (Decidable (_ = _))

/-- Columns of type `varchar`, the equalities of the two types, and the cast between them. -/
def textCatalog : Catalog ℕ TextType TextType where
  colType _ := .varchar
  leftType op := op
  rightType op := op
  isEquality _ := true
  isBinaryCoercible source target := source = .varchar && target = .bpchar

def textMeaning : Meaning TextType TextType Text where
  holds op a b := op.same a b
  same typ := typ.same
  same_equivalence
    | .varchar => ⟨fun _ => rfl, fun h => h.symm, fun h h' => h.trans h'⟩
    | .bpchar => ⟨fun _ => rfl, fun h => h.symm, fun h h' => h.trans h'⟩
  cast _ _ _ := none

def textRow (key : Text) : Row ℕ Text
  | 0 => some key
  | 1 => some ['x']
  | _ => none

def itemRow (key : Text) : Row ℕ Text
  | 2 => some key
  | 3 => some ['x']
  | _ => none

def textDatabase : Database ℕ Text where
  rows
    | 0 => {textRow ['a'], textRow ['a', ' ']}
    | _ => {itemRow ['a'], itemRow ['a', ' ']}
  scalar _ _ := none
  pred _ _ := none

/-- The first table has the key 0, the second the key of its two columns. -/
def textDerived : Derived ℕ TextType TextType Text where
  outputColumns
    | 0 => {0, 1}
    | _ => {2, 3}
  keyCollection
    | 0 => some [[0]]
    | _ => some [[2, 3]]
  maxCard expr := (expr.eval textCatalog textMeaning textDatabase).card

theorem textDerived_correct : textDerived.Correct textCatalog textMeaning textDatabase where
  columns id row mem other outside := by
    match id with
    | 0 =>
      have either : row = textRow ['a'] ∨ row = textRow ['a', ' '] := by
        simpa [textDatabase] using mem
      match other with
      | 0 | 1 => exact absurd (by simp [textDerived]) outside
      | _ + 2 => rcases either with rfl | rfl <;> rfl
    | _ + 1 =>
      have either : row = itemRow ['a'] ∨ row = itemRow ['a', ' '] := by
        simpa [textDatabase] using mem
      match other with
      | 2 | 3 => exact absurd (by simp [textDerived]) outside
      | 0 | 1 | _ + 4 => rcases either with rfl | rfl <;> rfl
  keys id keys collection key listed := by
    match id with
    | 0 =>
      cases collection
      cases List.mem_singleton.mp listed
      refine ⟨[textRow ['a'], textRow ['a', ' ']], rfl, List.pairwise_pair.mpr ?_⟩
      intro agree
      have same : (['a'] : Text) = ['a', ' '] := agree 0 (by simp)
      cases same
    | _ + 1 =>
      cases collection
      cases List.mem_singleton.mp listed
      refine ⟨[itemRow ['a'], itemRow ['a', ' ']], rfl, List.pairwise_pair.mpr ?_⟩
      intro agree
      have same : (['a'] : Text) = ['a', ' '] := agree 2 (by simp)
      cases same
  cards _ := le_refl _

theorem varchar_refines (side : Operand) (col : ℕ) :
    Refines textCatalog textMeaning .varchar side col := by
  cases side with
  | left =>
    intro a b c first second
    exact (of_decide_eq_true first).trans (of_decide_eq_true second).symm
  | right =>
    intro a b c first second
    exact (of_decide_eq_true first).symm.trans (of_decide_eq_true second)

/-- The tables joined on the first columns of their keys, where the second table is filtered on
    the rest of its key; the join also compares columns below casts. -/
def filteredJoin : CExpression ℕ TextType TextType Text :=
  .leftOuterJoin (.other 0)
    (.select (.other 1) (.cmp .varchar (.ident 3) (.const .varchar (some ['x']))))
    (.and [.cmp .varchar (.ident 0) (.ident 2),
      .cmp .bpchar (.cast .bpchar (.ident 1)) (.cast .bpchar (.ident 3))])

theorem filteredJoin_proves :
    Proves textCatalog (Refines textCatalog textMeaning) textDerived filteredJoin {0} := by
  classical
  refine .anchorLeft (by decide) (.inr rfl) (by decide) ?_ ?_
  · refine .key (by decide) rfl rfl (List.mem_singleton_self _) (by decide) fun col mem => .inl ?_
    rw [List.mem_singleton.mp mem]
    decide
  · refine .key ?_ rfl rfl (List.mem_singleton_self _) (by decide) ?_
    · exact (Finset.filter_subset _ _).trans (by decide)
    intro col mem
    rcases List.mem_pair.mp mem with rfl | rfl
    · refine .inl (Finset.mem_filter.mpr ⟨by decide, _, List.mem_cons_self, rfl, 0, by decide, ?_⟩)
      exact .inr ⟨rfl, rfl, varchar_refines _ _⟩
    · exact .inr ⟨_, List.mem_cons_self, _, List.mem_cons_self, rfl,
        .inr ⟨rfl, rfl, varchar_refines _ _⟩⟩

theorem filteredJoin_unique :
    fExpressionUniqueOnAttrs textCatalog textDerived filteredJoin {0} = true ∧
      Apart (Agree textCatalog textMeaning {0})
        (filteredJoin.eval textCatalog textMeaning textDatabase) := by
  have found : fExpressionUniqueOnAttrs textCatalog textDerived filteredJoin {0} = true := by
    decide
  refine ⟨found, ?_⟩
  have formed : filteredJoin.WellFormed textCatalog textDerived :=
    ⟨trivial, ⟨trivial, rfl, rfl⟩, ⟨⟨rfl, rfl⟩, ⟨rfl, rfl⟩, trivial⟩, by decide⟩
  exact unique_on_attrs_sound textCatalog textMeaning textDerived filteredJoin {0} formed
    (fun _ => filteredJoin_proves) found textDatabase textDerived_correct

def relabelledFilter : CExpression ℕ TextType TextType Text :=
  .select (.other 0) (.cmp .bpchar (.cast .bpchar (.ident 0)) (.const .bpchar (some ['a'])))

/-- The search finds the filtered table unique on column 1, on which its two rows agree. -/
theorem relabelledFilter_not_unique :
    relabelledFilter.WellFormed textCatalog textDerived ∧
      textDerived.Correct textCatalog textMeaning textDatabase ∧
      fExpressionUniqueOnAttrs textCatalog textDerived relabelledFilter {1} = true ∧
      ¬ Apart (Agree textCatalog textMeaning {1})
        (relabelledFilter.eval textCatalog textMeaning textDatabase) := by
  refine ⟨⟨trivial, rfl, rfl⟩, textDerived_correct, by decide, ?_⟩
  intro apart
  have both : relabelledFilter.eval textCatalog textMeaning textDatabase =
      {textRow ['a'], textRow ['a', ' ']} := rfl
  rw [both] at apart
  have few := apart.card_le_one (by
    intro r first s second col mem
    cases Finset.mem_singleton.mp mem
    simp only [Multiset.insert_eq_cons, Multiset.mem_cons, Multiset.mem_singleton] at first second
    rcases first with rfl | rfl <;> rcases second with rfl | rfl <;> rfl)
  simp at few

end UniqueAttrs
