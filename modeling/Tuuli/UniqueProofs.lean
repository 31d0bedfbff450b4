import Tuuli.UniqueAttrs

/-!
The proofs of uniqueness that the search goes through, as a relation: a derived key or
cardinality, or a join whose inputs have proofs. Which equalities may fix or connect a column is a
parameter; with all of them the relation is what the search finds.
-/
namespace UniqueAttrs

variable {Col Typ Op V : Type}

/-- The operand of a comparison in which a column stands. -/
inductive Operand where
  | left
  | right
  deriving DecidableEq, Repr

abbrev Trust (Op Col : Type) := Op → Operand → Col → Prop

section Comparisons

structure Comparison (Col Typ Op V : Type) where
  op : Op
  left : Scalar Col Typ V
  right : Scalar Col Typ V

mutual

def Pred.comparisons : Pred Col Typ Op V → List (Comparison Col Typ Op V)
  | .and children => comparisonsAll children
  | .cmp op left right => [⟨op, left, right⟩]
  | .other _ => []

def comparisonsAll : List (Pred Col Typ Op V) → List (Comparison Col Typ Op V)
  | [] => []
  | child :: rest => child.comparisons ++ comparisonsAll rest

end

variable (catalog : Catalog Col Typ Op) (trusts : Trust Op Col)

namespace Comparison

/-- The comparison is an equality of the column with a constant. -/
def Fixes (cmp : Comparison Col Typ Op V) (col : Col) : Prop :=
  catalog.isEquality cmp.op = true ∧
    ((cmp.left.fConst catalog = true ∧ cmp.right.pcrEqualityOperand catalog = some col ∧
        trusts cmp.op .right col) ∨
      (cmp.right.fConst catalog = true ∧ cmp.left.pcrEqualityOperand catalog = some col ∧
        trusts cmp.op .left col))

/-- The comparison is an equality of the column with one of the joined columns. -/
def Connects (joined : Finset Col) (cmp : Comparison Col Typ Op V) (col : Col) : Prop :=
  catalog.isEquality cmp.op = true ∧ ∃ other ∈ joined,
    (cmp.left.pcrEqualityOperand catalog = some col ∧
        cmp.right.pcrEqualityOperand catalog = some other ∧ trusts cmp.op .left col) ∨
      (cmp.right.pcrEqualityOperand catalog = some col ∧
        cmp.left.pcrEqualityOperand catalog = some other ∧ trusts cmp.op .right col)

def Trusted (cmp : Comparison Col Typ Op V) : Prop :=
  catalog.isEquality cmp.op = true →
    (∀ col, cmp.left.pcrEqualityOperand catalog = some col → trusts cmp.op .left col) ∧
      ∀ col, cmp.right.pcrEqualityOperand catalog = some col → trusts cmp.op .right col

variable {catalog trusts} {cmp : Comparison Col Typ Op V} {col : Col}

theorem Trusted.fixes (trusted : cmp.Trusted catalog trusts)
    (fixes : cmp.Fixes catalog (fun _ _ _ => True) col) : cmp.Fixes catalog trusts col := by
  obtain ⟨equality, ⟨const, operand, -⟩ | ⟨const, operand, -⟩⟩ := fixes
  · exact ⟨equality, .inl ⟨const, operand, (trusted equality).2 col operand⟩⟩
  · exact ⟨equality, .inr ⟨const, operand, (trusted equality).1 col operand⟩⟩

theorem Trusted.connects {joined : Finset Col} (trusted : cmp.Trusted catalog trusts)
    (connects : cmp.Connects catalog (fun _ _ _ => True) joined col) :
    cmp.Connects catalog trusts joined col := by
  obtain ⟨equality, other, inside, ⟨operand, known, -⟩ | ⟨operand, known, -⟩⟩ := connects
  · exact ⟨equality, other, inside, .inl ⟨operand, known, (trusted equality).1 col operand⟩⟩
  · exact ⟨equality, other, inside, .inr ⟨operand, known, (trusted equality).2 col operand⟩⟩

end Comparison

variable [DecidableEq Col] {catalog} {col : Col} {candidate joined : Finset Col}

mutual

theorem fPredicateFixesColumn_iff (pred : Pred Col Typ Op V) :
    fPredicateFixesColumn catalog col pred = true ↔
      ∃ cmp ∈ pred.comparisons, cmp.Fixes catalog (fun _ _ _ => True) col := by
  cases pred with
  | and children =>
    rw [fPredicateFixesColumn, Pred.comparisons]
    exact fAnyFixesColumn_iff children
  | cmp op left right =>
    simp [fPredicateFixesColumn, Pred.comparisons, Comparison.Fixes]
  | other id => simp [fPredicateFixesColumn, Pred.comparisons]

theorem fAnyFixesColumn_iff (children : List (Pred Col Typ Op V)) :
    fAnyFixesColumn catalog col children = true ↔
      ∃ cmp ∈ comparisonsAll children, cmp.Fixes catalog (fun _ _ _ => True) col := by
  cases children with
  | nil => simp [fAnyFixesColumn, comparisonsAll]
  | cons child rest =>
    rw [fAnyFixesColumn, Bool.or_eq_true, fPredicateFixesColumn_iff child,
      fAnyFixesColumn_iff rest, comparisonsAll]
    simp only [List.mem_append, or_and_right, exists_or]

end

mutual

theorem connects_of_mem (pred : Pred Col Typ Op V) : ∀ {connected : Finset Col},
    col ∈ collectConnectedColumns catalog candidate joined pred connected →
    col ∈ connected ∨ col ∈ candidate ∧
      ∃ cmp ∈ pred.comparisons, cmp.Connects catalog (fun _ _ _ => True) joined col := by
  intro connected mem
  cases pred with
  | and children =>
    rw [collectConnectedColumns] at mem
    exact connects_of_mem_all children mem
  | cmp op left right =>
    rw [collectConnectedColumns] at mem
    split at mem
    next equality =>
      split at mem
      next colLeft colRight operandLeft operandRight =>
        split at mem
        next inside =>
          rcases Finset.mem_insert.mp mem with rfl | mem
          · exact .inr ⟨inside.1, _, List.mem_singleton_self _, equality, colRight, inside.2,
              .inl ⟨operandLeft, operandRight, trivial⟩⟩
          · exact .inl mem
        next =>
          split at mem
          next inside =>
            rcases Finset.mem_insert.mp mem with rfl | mem
            · exact .inr ⟨inside.1, _, List.mem_singleton_self _, equality, colLeft, inside.2,
                .inr ⟨operandRight, operandLeft, trivial⟩⟩
            · exact .inl mem
          next => exact .inl mem
      next => exact .inl mem
    next => exact .inl mem
  | other id =>
    rw [collectConnectedColumns] at mem
    exact .inl mem

theorem connects_of_mem_all (children : List (Pred Col Typ Op V)) : ∀ {connected : Finset Col},
    col ∈ collectConnected catalog candidate joined children connected →
    col ∈ connected ∨ col ∈ candidate ∧
      ∃ cmp ∈ comparisonsAll children, cmp.Connects catalog (fun _ _ _ => True) joined col := by
  intro connected mem
  cases children with
  | nil =>
    rw [collectConnected] at mem
    exact .inl mem
  | cons child rest =>
    rw [collectConnected] at mem
    rw [comparisonsAll]
    rcases connects_of_mem_all rest mem with mem | ⟨inside, cmp, listed, connects⟩
    · rcases connects_of_mem child mem with mem | ⟨inside, cmp, listed, connects⟩
      · exact .inl mem
      · exact .inr ⟨inside, cmp, List.mem_append_left _ listed, connects⟩
    · exact .inr ⟨inside, cmp, List.mem_append_right _ listed, connects⟩

end

end Comparisons

section Proofs
variable [DecidableEq Col] (catalog : Catalog Col Typ Op) (trusts : Trust Op Col)
  (derived : Derived Col Typ Op V)

/-- The selections above the key source. -/
def CExpression.filters : CExpression Col Typ Op V → List (Pred Col Typ Op V)
  | .select child pred => pred :: child.filters
  | _ => []

def CExpression.keySource : CExpression Col Typ Op V → CExpression Col Typ Op V
  | .select child _ => child.keySource
  | expr => expr

def FilterFixes (expr : CExpression Col Typ Op V) (col : Col) : Prop :=
  ∃ pred ∈ expr.filters, ∃ cmp ∈ pred.comparisons, cmp.Fixes catalog trusts col

open Classical in
/-- The collected columns that a trusted equality connects. -/
noncomputable def connectedColumns (candidate joined : Finset Col) (pred : Pred Col Typ Op V) :
    Finset Col :=
  (collectConnectedColumns catalog candidate joined pred ∅).filter fun col =>
    ∃ cmp ∈ pred.comparisons, cmp.Connects catalog trusts joined col

/-- A proof that the expression is unique on the columns, from trusted equalities. -/
inductive Proves : CExpression Col Typ Op V → Finset Col → Prop
  | card {expr attrs} (inside : attrs ⊆ deriveOutputColumns derived expr)
      (few : derived.maxCard expr ≤ 1) : Proves expr attrs
  | key {expr attrs id keys key} (inside : attrs ⊆ deriveOutputColumns derived expr)
      (source : expr.keySource = .other id) (collection : derived.keyCollection id = some keys)
      (listed : key ∈ keys) (nonempty : 0 < key.length)
      (covered : ∀ col ∈ key, col ∈ attrs ∨ FilterFixes catalog trusts expr col) :
      Proves expr attrs
  | anchorLeft {expr attrs left right pred} (inside : attrs ⊆ deriveOutputColumns derived expr)
      (source : expr.keySource = .innerJoin left right pred ∨
        expr.keySource = .leftOuterJoin left right pred)
      (some : 0 < (attrs ∩ deriveOutputColumns derived left).card)
      (anchor : Proves left (attrs ∩ deriveOutputColumns derived left))
      (other : Proves right (connectedColumns catalog trusts (deriveOutputColumns derived right)
        (deriveOutputColumns derived left) pred)) : Proves expr attrs
  | anchorRight {expr attrs left right pred} (inside : attrs ⊆ deriveOutputColumns derived expr)
      (source : expr.keySource = .innerJoin left right pred)
      (some : 0 < (attrs ∩ deriveOutputColumns derived right).card)
      (anchor : Proves right (attrs ∩ deriveOutputColumns derived right))
      (other : Proves left (connectedColumns catalog trusts (deriveOutputColumns derived left)
        (deriveOutputColumns derived right) pred)) : Proves expr attrs

variable {catalog trusts derived} {expr source : CExpression Col Typ Op V} {attrs : Finset Col}
  {col : Col}

theorem fFilterFixesColumn_iff : fFilterFixesColumn catalog col expr = true ↔
    FilterFixes catalog (fun _ _ _ => True) expr col := by
  unfold FilterFixes
  induction expr with
  | select child pred ih =>
    rw [fFilterFixesColumn, Bool.or_eq_true, fPredicateFixesColumn_iff, ih, CExpression.filters]
    simp only [List.mem_cons, or_and_right, exists_or, exists_eq_left]
  | innerJoin left right pred _ _ => simp [fFilterFixesColumn, CExpression.filters]
  | leftOuterJoin left right pred _ _ => simp [fFilterFixesColumn, CExpression.filters]
  | other id => simp [fFilterFixesColumn, CExpression.filters]

theorem connectedColumns_all (candidate joined : Finset Col) (pred : Pred Col Typ Op V) :
    connectedColumns catalog (fun _ _ _ => True) candidate joined pred =
      collectConnectedColumns catalog candidate joined pred ∅ := by
  classical
  refine Finset.filter_true_of_mem fun col mem => ?_
  rcases connects_of_mem pred mem with none | ⟨-, connects⟩
  · exact absurd none (Finset.notMem_empty col)
  · exact connects

theorem covers_key_iff {keys : List (List Col)} :
    fAttrsAndFixedColumnsCoverKey catalog expr attrs keys = true ↔
      ∃ key ∈ keys, 0 < key.length ∧
        ∀ col ∈ key, col ∈ attrs ∨ FilterFixes catalog (fun _ _ _ => True) expr col := by
  simp only [fAttrsAndFixedColumnsCoverKey, List.any_eq_true, Bool.and_eq_true, List.all_eq_true,
    Bool.or_eq_true, decide_eq_true_eq, fFilterFixesColumn_iff]

theorem concludes_iff {unique : Bool} : concludes derived expr attrs unique = true ↔
    attrs ⊆ deriveOutputColumns derived expr ∧ (unique = true ∨ derived.maxCard expr ≤ 1) := by
  simp only [concludes, Bool.and_eq_true, Bool.or_eq_true, decide_eq_true_eq]

theorem proves_of_concludes
    (found : ∀ {attrs}, keySourceUnique catalog derived expr expr attrs = true →
      attrs ⊆ deriveOutputColumns derived expr →
        Proves catalog (fun _ _ _ => True) derived expr attrs)
    (concluded : concludes derived expr attrs (keySourceUnique catalog derived expr expr attrs)) :
    Proves catalog (fun _ _ _ => True) derived expr attrs := by
  obtain ⟨inside, unique | few⟩ := concludes_iff.mp concluded
  · exact found unique inside
  · exact .card inside few

theorem proves_of_keySourceUnique (source : CExpression Col Typ Op V) :
    ∀ {expr : CExpression Col Typ Op V} {attrs : Finset Col},
    expr.keySource = source.keySource → keySourceUnique catalog derived expr source attrs = true →
    attrs ⊆ deriveOutputColumns derived expr →
      Proves catalog (fun _ _ _ => True) derived expr attrs := by
  induction source with
  | select child pred ih =>
    intro expr attrs same unique inside
    exact ih same unique inside
  | innerJoin left right pred ihLeft ihRight =>
    intro expr attrs same unique inside
    simp only [keySourceUnique, anchors, Bool.or_eq_true, Bool.and_eq_true,
      decide_eq_true_eq] at unique
    rcases unique with ⟨⟨some, anchor⟩, other⟩ | ⟨⟨some, anchor⟩, other⟩
    · refine .anchorLeft inside (.inl same) some (proves_of_concludes (ihLeft rfl) anchor) ?_
      rw [connectedColumns_all]
      exact proves_of_concludes (ihRight rfl) other
    · refine .anchorRight inside same some (proves_of_concludes (ihRight rfl) anchor) ?_
      rw [connectedColumns_all]
      exact proves_of_concludes (ihLeft rfl) other
  | leftOuterJoin left right pred ihLeft ihRight =>
    intro expr attrs same unique inside
    simp only [keySourceUnique, anchors, Bool.and_eq_true, decide_eq_true_eq] at unique
    obtain ⟨⟨some, anchor⟩, other⟩ := unique
    refine .anchorLeft inside (.inr same) some (proves_of_concludes (ihLeft rfl) anchor) ?_
    rw [connectedColumns_all]
    exact proves_of_concludes (ihRight rfl) other
  | other id =>
    intro expr attrs same unique inside
    rw [keySourceUnique] at unique
    split at unique
    next => cases unique
    next keys collection =>
      obtain ⟨key, listed, nonempty, covered⟩ := covers_key_iff.mp unique
      exact .key inside same collection listed nonempty covered

theorem keySourceUnique_keySource (expr source : CExpression Col Typ Op V) (attrs : Finset Col) :
    keySourceUnique catalog derived expr source attrs =
      keySourceUnique catalog derived expr source.keySource attrs := by
  induction source with
  | select child pred ih => exact ih
  | innerJoin left right pred _ _ => rfl
  | leftOuterJoin left right pred _ _ => rfl
  | other id => rfl

/-- The search finds exactly the proofs from all equalities. -/
theorem fExpressionUniqueOnAttrs_iff : fExpressionUniqueOnAttrs catalog derived expr attrs = true ↔
    Proves catalog (fun _ _ _ => True) derived expr attrs := by
  constructor
  · exact proves_of_concludes fun {_} => proves_of_keySourceUnique expr rfl
  · intro proves
    induction proves with
    | card inside few => exact concludes_iff.mpr ⟨inside, .inr few⟩
    | key inside source collection listed nonempty covered =>
      refine concludes_iff.mpr ⟨inside, .inl ?_⟩
      rw [keySourceUnique_keySource, source, keySourceUnique, collection]
      exact covers_key_iff.mpr ⟨_, listed, nonempty, covered⟩
    | anchorLeft inside source some anchor other ihAnchor ihOther =>
      refine concludes_iff.mpr ⟨inside, .inl ?_⟩
      rw [connectedColumns_all] at ihOther
      unfold fExpressionUniqueOnAttrs at ihAnchor ihOther
      rw [keySourceUnique_keySource]
      rcases source with source | source
      · simp [source, keySourceUnique, anchors, some, ihAnchor, ihOther]
      · simp [source, keySourceUnique, anchors, some, ihAnchor, ihOther]
    | anchorRight inside source some anchor other ihAnchor ihOther =>
      refine concludes_iff.mpr ⟨inside, .inl ?_⟩
      rw [connectedColumns_all] at ihOther
      unfold fExpressionUniqueOnAttrs at ihAnchor ihOther
      rw [keySourceUnique_keySource]
      simp [source, keySourceUnique, anchors, some, ihAnchor, ihOther]

/-! ### Expressions whose equalities are all trusted -/

def CExpression.comparisons : CExpression Col Typ Op V → List (Comparison Col Typ Op V)
  | .select child pred => pred.comparisons ++ child.comparisons
  | .innerJoin left right pred | .leftOuterJoin left right pred =>
    pred.comparisons ++ (left.comparisons ++ right.comparisons)
  | .other _ => []

omit [DecidableEq Col] in
theorem CExpression.mem_comparisons_of_filter {pred : Pred Col Typ Op V}
    {cmp : Comparison Col Typ Op V} (listed : pred ∈ expr.filters)
    (compared : cmp ∈ pred.comparisons) : cmp ∈ expr.comparisons := by
  induction expr with
  | select child here ih =>
    rcases List.mem_cons.mp listed with rfl | later
    · exact List.mem_append_left _ compared
    · exact List.mem_append_right _ (ih later)
  | innerJoin left right here _ _ => cases listed
  | leftOuterJoin left right here _ _ => cases listed
  | other id => cases listed

omit [DecidableEq Col] in
theorem CExpression.mem_comparisons_of_keySource {cmp : Comparison Col Typ Op V}
    (compared : cmp ∈ expr.keySource.comparisons) : cmp ∈ expr.comparisons := by
  induction expr with
  | select child here ih => exact List.mem_append_right _ (ih compared)
  | innerJoin left right here _ _ => exact compared
  | leftOuterJoin left right here _ _ => exact compared
  | other id => exact compared

theorem connectedColumns_of_trusted {candidate joined : Finset Col} {pred : Pred Col Typ Op V}
    (trusted : ∀ cmp ∈ pred.comparisons, cmp.Trusted catalog trusts) :
    connectedColumns catalog trusts candidate joined pred =
      connectedColumns catalog (fun _ _ _ => True) candidate joined pred := by
  classical
  rw [connectedColumns_all]
  refine Finset.filter_true_of_mem fun col mem => ?_
  rcases connects_of_mem pred mem with none | ⟨-, cmp, compared, connects⟩
  · exact absurd none (Finset.notMem_empty col)
  · exact ⟨cmp, compared, (trusted cmp compared).connects connects⟩

theorem Proves.of_trusted (proves : Proves catalog (fun _ _ _ => True) derived expr attrs) :
    (∀ cmp ∈ expr.comparisons, cmp.Trusted catalog trusts) →
      Proves catalog trusts derived expr attrs := by
  induction proves with
  | card inside few => exact fun _ => .card inside few
  | key inside source collection listed nonempty covered =>
    intro trusted
    refine .key inside source collection listed nonempty fun col mem => (covered col mem).imp_right ?_
    rintro ⟨pred, filters, cmp, compared, fixes⟩
    have whole := trusted cmp (CExpression.mem_comparisons_of_filter filters compared)
    exact ⟨pred, filters, cmp, compared, whole.fixes fixes⟩
  | @anchorLeft expr attrs left right pred inside source some anchor other ihAnchor ihOther =>
    intro trusted
    have parts : ∀ cmp ∈ pred.comparisons ++ (left.comparisons ++ right.comparisons),
        cmp.Trusted catalog trusts := by
      intro cmp mem
      apply trusted cmp (CExpression.mem_comparisons_of_keySource _)
      rcases source with source | source <;> rwa [source, CExpression.comparisons]
    simp only [List.mem_append] at parts
    refine .anchorLeft inside source some (ihAnchor fun cmp mem => parts cmp (.inr (.inl mem))) ?_
    rw [connectedColumns_of_trusted fun cmp mem => parts cmp (.inl mem)]
    exact ihOther fun cmp mem => parts cmp (.inr (.inr mem))
  | @anchorRight expr attrs left right pred inside source some anchor other ihAnchor ihOther =>
    intro trusted
    have parts : ∀ cmp ∈ pred.comparisons ++ (left.comparisons ++ right.comparisons),
        cmp.Trusted catalog trusts := by
      intro cmp mem
      apply trusted cmp (CExpression.mem_comparisons_of_keySource _)
      rwa [source, CExpression.comparisons]
    simp only [List.mem_append] at parts
    refine .anchorRight inside source some (ihAnchor fun cmp mem => parts cmp (.inr (.inr mem))) ?_
    rw [connectedColumns_of_trusted fun cmp mem => parts cmp (.inl mem)]
    exact ihOther fun cmp mem => parts cmp (.inr (.inl mem))

end Proofs

end UniqueAttrs
