import LL1.Proofs.LeftRecursion.Symbols

/-!
# What elimination adds

The start symbol and the keys stay as they are. Behind the keys stand the helpers, in the
order of the keys that they are made for, at most one for each. A helper is its key with
primes, so many that no symbol of the grammar and no other helper has its name. Apart from
the empty string nothing else comes in.
-/

namespace LL1

open Elimination

theorem Expression.getLast?_join (e : Expression) {s : Symbol} (h : s ≠ .epsilon) :
    (e.join [s]).getLast? = some s := by
  have hbare : withoutEpsilon (e ++ [s]) = withoutEpsilon e ++ [s] := by
    rw [withoutEpsilon_append, withoutEpsilon_cons_of_ne h, withoutEpsilon_nil]
  rcases join_eq e [s] with hjoin | ⟨hnil, _⟩
  · rw [hjoin, hbare, List.getLast?_concat]
  · rw [hbare] at hnil
    exact absurd hnil (List.append_ne_nil_of_right_ne_nil _ (List.cons_ne_nil s []))

namespace Grammar

variable {g r : Grammar} {helper : Symbol → Option Symbol} {key h s : Symbol} {e : Expression}

/-- The grammar `r` has the keys of `g` and helpers for some of them. -/
structure AddsHelpers (g r : Grammar) (helper : Symbol → Option Symbol) : Prop where
  start_eq : r.start = g.start
  keys_eq : r.keys = g.keys ++ g.keys.filterMap helper
  nodup_helpers : (g.keys.filterMap helper).Nodup
  isKey_of_helper {key h : Symbol} : helper key = some h → g.isKey key
  primed {key h : Symbol} : helper key = some h → g.IsFirstPrimed helper key h
  not_isKey {key h : Symbol} : helper key = some h → ¬ g.isKey h
  not_mem {key h left : Symbol} {e : Expression} : helper key = some h →
    e ∈ g.alternatives left → h ∉ e
  getLast?_eq {key h : Symbol} {e : Expression} : helper key = some h →
    e ∈ r.alternatives key → e.getLast? = some h
  mem_cases {left s : Symbol} {e : Expression} : e ∈ r.alternatives left → s ∈ e →
    s = .epsilon ∨ (g.isKey s ∨ ∃ key, ∃ f ∈ g.alternatives key, s ∈ f) ∨
      s ∈ g.keys.filterMap helper

theorem addsHelpers_self (g : Grammar) : g.AddsHelpers g fun _ => none where
  start_eq := rfl
  keys_eq := by simp
  nodup_helpers := by simp
  isKey_of_helper h := by cases h
  primed h := by cases h
  not_isKey h := by cases h
  not_mem h := by cases h
  getLast?_eq h := by cases h
  mem_cases {left} {s} {e} he hs := Or.inr (Or.inl (Or.inr ⟨left, e, he, hs⟩))

theorem Rewrites.addsHelpers (hr : Rewrites g r helper) : g.AddsHelpers r helper where
  start_eq := hr.start_eq
  keys_eq := hr.keys_eq
  nodup_helpers := by
    have hnodup := r.nodup_keys
    rw [hr.keys_eq] at hnodup
    exact (List.nodup_append.mp hnodup).2.1
  isKey_of_helper := hr.isKey_of_helper
  primed := hr.helper_primed
  not_isKey hh hkey := hr.not_mem_symbols hh (mem_symbols_of_isKey hkey)
  not_mem hh he hmem := hr.not_mem_symbols hh (mem_symbols_of_mem_alternatives he hmem)
  getLast?_eq {key} {h} {e} hh he := by
    obtain ⟨f, _, _, rfl⟩ := (hr.mem_alternatives (hr.isKey_of_helper hh)).mp he
    rw [hh]
    exact Expression.getLast?_join f (hr.helper_ne_epsilon hh)
  mem_cases {left} {s} {e} he hs := by
    by_cases hne : s = .epsilon
    · exact Or.inl hne
    · rcases hr.mem_symbols_or_helper_of_mem_alternatives he hs hne with hmem | ⟨owner, hh⟩
      · refine Or.inr (Or.inl ((mem_symbols_iff.mp hmem).imp_right ?_))
        exact exists_of_mem_occurring
      · refine Or.inr (Or.inr (List.mem_filterMap.mpr ⟨owner, ?_, hh⟩))
        exact mem_keys.mpr (hr.isKey_of_helper hh)

theorem exists_addsHelpers (g : Grammar) :
    ∃ helper, g.AddsHelpers g.withoutLeftRecursion helper := by
  by_cases hrec : g.isLeftRecursive
  · obtain ⟨helper, hr⟩ := exists_rewrites hrec
    exact ⟨helper, hr.addsHelpers⟩
  · rw [withoutLeftRecursion_eq_self hrec]
    exact ⟨_, g.addsHelpers_self⟩

/-- Elimination keeps the keys and puts new helpers behind them. The search for the name
of a helper ends with the first primed name that is not taken, after at most as many primes
as there are names that are taken. -/
theorem withoutLeftRecursion_addsHelpers (g : Grammar) :
    (∃ helper, g.AddsHelpers g.withoutLeftRecursion helper) ∧
      ∀ (taken : List Symbol) (s : Symbol), ∃ n ≤ taken.length,
        firstFree taken s = Symbol.prime^[n] s ∧ Symbol.prime^[n] s ∉ taken ∧
          ∀ m < n, Symbol.prime^[m] s ∈ taken :=
  ⟨g.exists_addsHelpers, firstFree_spec⟩

/-- A symbol without a rule takes the first primed name. -/
example : (Bnf.read "<A> ::= <A> \"x\" | <A'>").map (fun g => g.withoutLeftRecursion.keys) =
    .ok [.nonTerminal "A", .nonTerminal "A''"] := by
  decide +kernel

end Grammar
end LL1
