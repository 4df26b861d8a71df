import LL1.Proofs.LeftRecursion.Rewriting

/-!
# Induction over the expansion

An alternative of the expanded list of a key is an original one or comes from one
that starts with an earlier key, by putting a final alternative of that key in its
place. The final alternatives of the earlier key are again expanded ones, with its
helper behind them if it has one. What holds of the original alternatives and is
kept by such a replacement therefore holds of all expanded ones.

The replacements for a key are made in the order of the keys before it, so what is
shown of an alternative may depend on which of them have been made.
-/

namespace LL1

open Elimination

namespace Expression

/-- A join only looks at the symbols that it does not drop. -/
theorem join_congr {e e' tail tail' : Expression}
    (h : withoutEpsilon (e ++ tail) = withoutEpsilon (e' ++ tail')) :
    e.join tail = e'.join tail' := by
  unfold join
  rw [h]

/-- An alternative with a helper behind it, if there is one. -/
def continued (helper : Option Symbol) (e : Expression) : Expression :=
  match helper with
  | none => e
  | some h => e.join [h]

theorem continued_join (helper : Option Symbol) (e tail : Expression) :
    (e.continued helper).join tail = Expression.join (e ++ helper.toList) tail := by
  cases helper with
  | none => rw [Option.toList_none, List.append_nil, continued]
  | some h =>
    apply join_congr
    rw [withoutEpsilon_append, withoutEpsilon_append (e ++ _), continued, withoutEpsilon_join,
      Option.toList_some, withoutEpsilon_append]

end Expression

namespace Grammar

variable {g r : Grammar} {helper : Symbol → Option Symbol} {key h s : Symbol} {e : Expression}

theorem Rewrites.alternatives_eq (hr : Rewrites g r helper) (hkey : g.isKey key) :
    r.alternatives key =
      (otherAlternatives key (g.expanded r key)).map (·.continued (helper key)) := by
  cases hh : helper key with
  | none =>
    rw [(hr.alternatives_plain hkey hh).2]
    exact (List.map_id _).symm
  | some new => exact (hr.alternatives_helped hh).2.1

theorem Rewrites.mem_alternatives (hr : Rewrites g r helper) (hkey : g.isKey key) :
    e ∈ r.alternatives key ↔
      ∃ f ∈ g.expanded r key, ¬ f.isLedBy key ∧ f.continued (helper key) = e := by
  rw [hr.alternatives_eq hkey, List.mem_map]
  simp only [mem_otherAlternatives, and_assoc]

theorem Rewrites.mem_alternatives_helper (hr : Rewrites g r helper) (hh : helper key = some h) :
    e ∈ r.alternatives h ↔
      (key ≠ .epsilon ∧ ∃ tail : Expression, tail ≠ [] ∧ key :: tail ∈ g.expanded r key ∧ tail.join [h] = e) ∨
        e = Expression.epsilon := by
  rw [(hr.alternatives_helped hh).2.2, repetition, List.mem_append, List.mem_map,
    List.mem_singleton]
  simp only [mem_recursiveTails]
  refine or_congr ⟨fun h => ?_, fun h => ?_⟩ Iff.rfl
  · obtain ⟨tail, ⟨hne, htail, hmem⟩, heq⟩ := h
    exact ⟨hne, tail, htail, hmem, heq⟩
  · obtain ⟨hne, tail, htail, hmem, heq⟩ := h
    exact ⟨tail, ⟨hne, htail, hmem⟩, heq⟩

/-- What `expanded_induction` shows of the alternatives of a key when some of the keys
before it have been replaced. -/
structure ExpansionMotive (g r : Grammar) (helper : Symbol → Option Symbol)
    (P : Symbol → List Symbol → Expression → Prop) : Prop where
  original {key : Symbol} {e : Expression} : e ∈ g.alternatives key → P key [] e
  kept {key j : Symbol} {replaced : List Symbol} {e : Expression} : j ∈ g.keysBefore key →
    P key replaced e → ¬ e.isLedBy j → P key (replaced ++ [j]) e
  replaced {key j : Symbol} {rest f : Expression} : j ∈ g.keysBefore key →
    P key (g.keysBefore j) (j :: rest) → (∀ e ∈ g.expanded r j, P j (g.keysBefore j) e) →
    f ∈ g.expanded r j → ¬ f.isLedBy j →
    P key (g.keysBefore j ++ [j]) (Expression.join (f ++ (helper j).toList) rest)

variable {P : Symbol → List Symbol → Expression → Prop}

theorem ExpansionMotive.expandLeading (hP : ExpansionMotive g r helper P)
    (hr : Rewrites g r helper) (hkey : g.isKey key)
    (ih : ∀ j ∈ g.keysBefore key, ∀ f ∈ g.expanded r j, P j (g.keysBefore j) f)
    (replaced todo : List Symbol) (hkeys : g.keysBefore key = replaced ++ todo)
    {es : List Expression} (hes : ∀ e ∈ es, P key replaced e) :
    ∀ e ∈ expandLeading (todo.map fun j => (j, r.alternatives j)) es,
      P key (g.keysBefore key) e := by
  induction todo generalizing replaced es with
  | nil =>
    rw [List.append_nil] at hkeys
    rw [hkeys]
    exact hes
  | cons j todo ih' =>
    obtain ⟨hj, hbefore⟩ := keysBefore_eq_of_split hkey hkeys
    refine ih' (replaced ++ [j]) (by rw [hkeys, List.append_assoc]; rfl) ?_
    intro e he
    rcases mem_substitute.mp he with ⟨_, rest, hrest, d, hd, rfl⟩ | ⟨he, hled⟩
    · obtain ⟨f, hf, hfled, rfl⟩ := (hr.mem_alternatives (isKey_of_mem_keysBefore hj)).mp hd
      rw [Expression.continued_join, ← hbefore]
      refine hP.replaced hj ?_ (ih j hj) hf hfled
      rw [hbefore]
      exact hes _ hrest
    · exact hP.kept hj (hes e he) hled

theorem Rewrites.expanded_induction (hr : Rewrites g r helper)
    (hP : ExpansionMotive g r helper P) (hkey : g.isKey key) :
    ∀ e ∈ g.expanded r key, P key (g.keysBefore key) e := by
  revert key
  apply keys_induction
  intro key hkey ih
  have horiginal : ∀ e ∈ g.alternatives key, P key [] e := fun e he => hP.original he
  exact hP.expandLeading hr hkey ih [] (g.keysBefore key) rfl horiginal

end Grammar
end LL1
