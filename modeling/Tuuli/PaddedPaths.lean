import Tuuli.CandidateIsolation
import Tuuli.MemoWalk

/-!
Paths of the index as the walk of the Memo reads them. A state may stay at a node
with an available rule while it consumes a group, so an expression emitted for a
path is read along that path with wildcards put in at such nodes.
-/
namespace RuleIndex
open WildcardTrie RewriteProgram

mutual

theorem Full.visits_front : ∀ {expr : Expr} {path : Edges}, Full views expr path →
    ∀ {front back : Edges}, path = front ++ back → front ≠ [] → Visits expr front
  | _, _, _, [], _, _, nonempty => absurd rfl nonempty
  | _, _, .wild expr, label :: front, back, split, _ => by
    simp only [List.cons_append, List.cons.injEq, List.nil_eq, List.append_eq_nil_iff] at split
    obtain ⟨rfl, rfl, _⟩ := split
    exact .wild expr
  | _, _, .edge fits rest, label :: front, back, split, _ => by
    simp only [List.cons_append, List.cons.injEq] at split
    obtain ⟨rfl, split⟩ := split
    by_cases last : front = []
    · subst last
      exact .here fits
    · exact .inside fits (FullChildren.visits_front rest split last)

theorem FullChildren.visits_front : ∀ {flags : AdapterFlags} {first : Bool} {count : ℕ}
    {children : List Expr} {path : Edges}, FullChildren views flags first count children path →
    ∀ {front back : Edges}, path = front ++ back → front ≠ [] →
      VisitsChildren flags first count children front
  | _, _, _, _, _, .done, front, back, split, nonempty =>
    absurd (List.append_eq_nil_iff.mp split.symm).1 nonempty
  | _, _, _, _, _, .next shown head tail, front, back, split, nonempty => by
    rcases List.append_eq_append_iff.mp split with ⟨between, same, rest⟩ | ⟨between, inside, _⟩
    · subst same
      by_cases last : between = []
      · subst last
        rw [List.append_nil] at nonempty ⊢
        exact .child shown (Full.visits_front head (List.append_nil _).symm nonempty)
      · exact .later shown head (FullChildren.visits_front tail rest last)
    · exact .child shown (Full.visits_front head inside nonempty)

end

/-! ### Paths with wildcards put in -/

section Padding
variable {Rule : Type} (available : SRuleEntry Rule → Bool)

/-- The first path leads from one node to the other; the second has a wildcard more for each
    subtree consumed at a node with an available rule. -/
inductive Pads : SNode Rule → Edges → Edges → SNode Rule → Prop
  | refl (u : SNode Rule) : Pads u [] [] u
  | stay {u v : SNode Rule} {path padded : Edges}
      (terminal : fNodeHasAvailableTerminal available u = true) (rest : Pads u path padded v) :
      Pads u path (.wild :: padded) v
  | wild {u child v : SNode Rule} {path padded : Edges} (edge : u.wild = some child)
      (rest : Pads child path padded v) : Pads u (.wild :: path) (.wild :: padded) v
  | key {u child v : SNode Rule} {k : SExactEdge} {path padded : Edges}
      (edge : (k, child) ∈ u.edges) (rest : Pads child path padded v) :
      Pads u (.key k :: path) (.key k :: padded) v

variable {available} {u v w : SNode Rule} {path padded more morePadded : Edges}

theorem Pads.trans (first : Pads available u path padded v)
    (second : Pads available v more morePadded w) :
    Pads available u (path ++ more) (padded ++ morePadded) w := by
  induction first with
  | refl => exact second
  | stay terminal _ ih => exact .stay terminal (ih second)
  | wild edge _ ih => exact .wild edge (ih second)
  | key edge _ ih => exact .key edge (ih second)

variable (h : Pads available u path padded v)

include h

theorem Pads.leads : Trie.Leads u path v := by
  induction h with
  | refl => exact .refl _
  | stay _ _ ih => exact ih
  | wild edge _ ih => exact .wild edge ih
  | key edge _ ih => exact .key edge ih

theorem Pads.first_stay : padded = path ∨
    ∃ front back backPadded w, path = front ++ back ∧ padded = front ++ .wild :: backPadded ∧
      Trie.Leads u front w ∧ fNodeHasAvailableTerminal available w = true ∧
      Pads available w back backPadded v := by
  induction h with
  | refl => exact Or.inl rfl
  | stay terminal rest _ => exact Or.inr ⟨[], _, _, _, rfl, rfl, .refl _, terminal, rest⟩
  | wild edge _ ih =>
    rcases ih with same | ⟨front, back, backPadded, w, rfl, rfl, leads, terminal, rest⟩
    · exact Or.inl (by rw [same])
    · exact Or.inr ⟨.wild :: front, back, backPadded, w, rfl, rfl, .wild edge leads, terminal,
        rest⟩
  | key edge _ ih =>
    rcases ih with same | ⟨front, back, backPadded, w, rfl, rfl, leads, terminal, rest⟩
    · exact Or.inl (by rw [same])
    · exact Or.inr ⟨.key _ :: front, back, backPadded, w, rfl, rfl, .key edge leads, terminal,
        rest⟩

theorem Pads.first_key {edge : SExactEdge} (listed : .key edge ∈ path) :
    ∃ wilds more next rest tail, path = List.replicate wilds .wild ++ .key next :: rest ∧
      padded = List.replicate more .wild ++ .key next :: tail ∧ wilds ≤ more := by
  induction h with
  | refl => exact absurd listed List.not_mem_nil
  | stay _ _ ih =>
    obtain ⟨wilds, more, next, rest, tail, same, samePadded, le⟩ := ih listed
    exact ⟨wilds, more + 1, next, rest, tail, same, by rw [samePadded]; rfl, Nat.le_succ_of_le le⟩
  | wild _ _ ih =>
    obtain ⟨wilds, more, next, rest, tail, same, samePadded, le⟩ :=
      ih (List.mem_of_ne_of_mem (fun same => by cases same) listed)
    exact ⟨wilds + 1, more + 1, next, rest, tail, by rw [same]; rfl, by rw [samePadded]; rfl,
      Nat.succ_le_succ le⟩
  | key _ _ _ => exact ⟨0, 0, _, _, _, rfl, rfl, le_rfl⟩

theorem Pads.front_of_wild (plain : ∀ label ∈ path, label = .wild) :
    path = List.replicate path.length .wild ∧ padded = List.replicate padded.length .wild ∧
      path.length ≤ padded.length := by
  induction h with
  | refl => simp
  | stay _ _ ih =>
    obtain ⟨same, samePadded, le⟩ := ih plain
    rw [List.length_cons, List.replicate_succ, ← samePadded]
    exact ⟨same, rfl, Nat.le_succ_of_le le⟩
  | wild _ _ ih =>
    obtain ⟨same, samePadded, le⟩ := ih fun label mem => plain label (List.mem_cons_of_mem _ mem)
    rw [List.length_cons, List.length_cons, List.replicate_succ, List.replicate_succ, ← same,
      ← samePadded]
    exact ⟨rfl, rfl, Nat.succ_le_succ le⟩
  | key _ _ _ => cases plain _ List.mem_cons_self

end Padding

end RuleIndex
