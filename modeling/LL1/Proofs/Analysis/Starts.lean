import LL1.Analysis
import LL1.Proofs.Exposure

/-!
# What expressions start with

FIRST of an expression holds the symbols without a rule that lead the forms it
derives, and the empty string if it vanishes. This meaning satisfies the equations
that the recursion for FIRST sets follows. The recursion looks at what is exposed: it
ends below a key from which every chain of exposed keys ends, and what blocks it is a
key in progress that such a chain reaches.
-/

namespace LL1

namespace SymbolSet

variable {first : SymbolSet} {a : Symbol}

theorem nullable_iff : first.nullable ↔ .epsilon ∈ first := by
  rw [nullable, decide_eq_true_eq]

theorem mem_nonEpsilon : a ∈ first.nonEpsilon ↔ a ≠ .epsilon ∧ a ∈ first := by
  rw [nonEpsilon, List.mem_filter, OrderedSet.mem_toList, and_comm]
  simp [Symbol.isEpsilon]

end SymbolSet

namespace Grammar

open Relation

variable {g : Grammar} {s a : Symbol} {e : Expression} {idle : List Symbol}

/-- What the forms that an expression derives start with. -/
def Starts (g : Grammar) (e : Expression) (a : Symbol) : Prop :=
  (a = .epsilon ∧ g.Vanishes e) ∨
    (a ≠ .epsilon ∧ ¬ g.isKey a ∧ ∃ w, g.Derives e.withoutEpsilon (a :: w))

@[simp]
theorem starts_epsilon_iff : g.Starts e .epsilon ↔ g.Vanishes e := by
  simp [Starts]

theorem starts_iff_of_ne (h : a ≠ .epsilon) :
    g.Starts e a ↔ ¬ g.isKey a ∧ ∃ w, g.Derives e.withoutEpsilon (a :: w) := by
  simp [Starts, h]

theorem starts_cons_self (hne : a ≠ .epsilon) (hkey : ¬ g.isKey a) (w : List Symbol) :
    g.Starts (a :: w) a := by
  rw [starts_iff_of_ne hne, Expression.withoutEpsilon_cons_of_ne hne]
  exact ⟨hkey, _, .refl _⟩

theorem starts_nil_iff : g.Starts [] a ↔ a = .epsilon := by
  by_cases h : a = .epsilon
  · rw [h, starts_epsilon_iff]
    exact iff_of_true vanishes_nil rfl
  · rw [starts_iff_of_ne h]
    refine iff_of_false (fun ⟨_, w, hw⟩ => ?_) h
    simp [derives_nil_iff] at hw

theorem starts_cons_iff (h : a ≠ .epsilon) :
    g.Starts (s :: e) a ↔ g.Starts [s] a ∨ (g.Vanishes [s] ∧ g.Starts e a) := by
  rw [starts_iff_of_ne h, starts_iff_of_ne h, starts_iff_of_ne h,
    Expression.withoutEpsilon_cons]
  constructor
  · rintro ⟨ha, w, hw⟩
    obtain ⟨u, v, heq, hu, hv⟩ := derives_append_iff.mp hw
    cases u with
    | nil =>
      rw [List.nil_append] at heq
      exact Or.inr ⟨hu, ha, w, heq ▸ hv⟩
    | cons b u =>
      obtain ⟨rfl, rfl⟩ := List.cons_eq_cons.mp heq
      exact Or.inl ⟨ha, u, hu⟩
  · rintro (⟨ha, w, hw⟩ | ⟨hs, ha, w, hw⟩)
    · exact ⟨ha, w ++ e.withoutEpsilon, hw.append (.refl _)⟩
    · exact ⟨ha, w, hs.append hw⟩

theorem starts_append_iff {f : Expression} (h : a ≠ .epsilon) :
    g.Starts (e ++ f) a ↔ g.Starts e a ∨ (g.Vanishes e ∧ g.Starts f a) := by
  induction e with
  | nil =>
    rw [List.nil_append, starts_nil_iff, and_iff_right vanishes_nil]
    exact (or_iff_right h).symm
  | cons s e ih =>
    rw [List.cons_append, starts_cons_iff h, starts_cons_iff h (e := e), ih,
      vanishes_cons (e := e), and_or_left, or_assoc, and_assoc]

/-- What a derived form starts with, the first form does. -/
theorem Starts.of_derives {f : Expression} (hderives : g.Derives e.withoutEpsilon f.withoutEpsilon)
    (h : g.Starts f a) : g.Starts e a := by
  rcases h with ⟨ha, hf⟩ | ⟨ha, hkey, w, hw⟩
  · exact Or.inl ⟨ha, hderives.trans hf⟩
  · exact Or.inr ⟨ha, hkey, w, hderives.trans hw⟩

theorem starts_withoutEpsilon_iff : g.Starts e.withoutEpsilon a ↔ g.Starts e a := by
  unfold Starts
  rw [vanishes_withoutEpsilon_iff, Expression.withoutEpsilon_withoutEpsilon]

theorem starts_cons_iff_of_vanishes (hs : g.Vanishes [s]) :
    g.Starts (s :: e) a ↔ (a ≠ .epsilon ∧ g.Starts [s] a) ∨ g.Starts e a := by
  by_cases ha : a = .epsilon
  · have htail : g.Vanishes (s :: e) ↔ g.Vanishes e := vanishes_cons.trans (and_iff_right hs)
    simp [ha, htail]
  · rw [starts_cons_iff ha, and_iff_right hs, and_iff_right ha]

theorem starts_cons_iff_of_not_vanishes (hs : ¬ g.Vanishes [s]) :
    g.Starts (s :: e) a ↔ a ≠ .epsilon ∧ g.Starts [s] a := by
  by_cases ha : a = .epsilon
  · have htail : ¬ g.Vanishes (s :: e) := fun h => hs (vanishes_cons.mp h).1
    simp [ha, htail]
  · rw [starts_cons_iff ha, and_iff_right ha]
    exact or_iff_left fun h => hs h.1

theorem starts_singleton_iff_of_not_isKey (h : ¬ g.isKey s) : g.Starts [s] a ↔ a = s := by
  by_cases hs : s = .epsilon
  · subst hs
    by_cases ha : a = .epsilon
    · rw [ha, starts_epsilon_iff]
      exact iff_of_true vanishes_epsilon rfl
    · rw [starts_iff_of_ne ha]
      refine iff_of_false (fun ⟨_, w, hw⟩ => ?_) ha
      have hnil : g.Derives [] (a :: w) := hw
      simp [derives_nil_iff] at hnil
  · have hbare : Expression.withoutEpsilon [s] = [s] := Expression.withoutEpsilon_cons_of_ne hs []
    by_cases ha : a = .epsilon
    · rw [ha, starts_epsilon_iff, Vanishes, hbare, derives_singleton_iff_of_not_isKey h]
      exact iff_of_false (List.cons_ne_nil s []).symm fun heq => hs heq.symm
    · rw [starts_iff_of_ne ha, hbare]
      constructor
      · rintro ⟨_, w, hw⟩
        exact (List.cons_eq_cons.mp ((derives_singleton_iff_of_not_isKey h).mp hw)).1
      · rintro rfl
        exact ⟨h, [], .refl [a]⟩

theorem vanishes_singleton_iff (hs : s ≠ .epsilon) :
    g.Vanishes [s] ↔ ∃ e ∈ g.alternatives s, g.Vanishes e := by
  rw [Vanishes, Expression.withoutEpsilon_cons_of_ne hs, Expression.withoutEpsilon_nil,
    derives_singleton_iff]
  exact or_iff_right (List.cons_ne_nil s []).symm

theorem starts_singleton_iff_of_isKey (hkey : g.isKey s) (hs : s ≠ .epsilon) :
    g.Starts [s] a ↔ ∃ e ∈ g.alternatives s, g.Starts e a := by
  by_cases ha : a = .epsilon
  · simp only [ha, starts_epsilon_iff]
    exact vanishes_singleton_iff hs
  · simp only [starts_iff_of_ne ha]
    rw [Expression.withoutEpsilon_cons_of_ne hs, Expression.withoutEpsilon_nil]
    constructor
    · rintro ⟨hnot, w, hw⟩
      rcases derives_singleton_iff.mp hw with heq | ⟨e, he, hew⟩
      · exact absurd ((List.cons_eq_cons.mp heq).1 ▸ hkey) hnot
      · exact ⟨e, he, hnot, w, hew⟩
    · rintro ⟨e, he, hnot, w, hew⟩
      exact ⟨hnot, w, (derives_of_mem_alternatives he).trans hew⟩

/-- Every chain of exposed keys from what is exposed in the expression ends. -/
def Grounded (g : Grammar) (e : Expression) : Prop :=
  ∀ t, g.Exposed e t → Acc (fun t s => g.Exposes s t) t

theorem grounded_nil : g.Grounded [] := fun _ h => absurd h not_exposed_nil

theorem grounded_singleton_iff (hkey : g.isKey s) :
    g.Grounded [s] ↔ Acc (fun t s => g.Exposes s t) s := by
  constructor
  · exact fun h => h s (exposed_singleton_iff.mpr ⟨rfl, hkey⟩)
  · intro h t ht
    rw [(exposed_singleton_iff.mp ht).1]
    exact h

/-- The key is exposed by itself, or it is not idle and exposed from the expression on. -/
def Blocked (g : Grammar) (idle : List Symbol) (e : Expression) (key : Symbol) : Prop :=
  TransGen g.Exposes key key ∨
    ∃ t, g.Exposed e t ∧ ReflTransGen g.Exposes t key ∧ key ∉ idle

theorem Blocked.mono {f : Expression} {key : Symbol} (h : g.Blocked idle e key)
    (hsub : ∀ t, g.Exposed e t → g.Exposed f t) : g.Blocked idle f key := by
  refine h.imp_right fun ⟨t, ht, hreach⟩ => ⟨t, hsub t ht, hreach⟩

/-- What blocks an alternative of a key in progress closes a cycle through the key or
blocks the key. -/
theorem Blocked.of_alternative {key : Symbol} (he : e ∈ g.alternatives s)
    (h : g.Blocked (idle.erase s) e key) : g.Blocked idle [s] key := by
  rcases h with hcycle | ⟨t, ht, hreach, hidle⟩
  · exact Or.inl hcycle
  · have hst : g.Exposes s t := ⟨e, he, ht⟩
    by_cases hkey : key = s
    · exact Or.inl (hkey ▸ TransGen.head' hst (hkey ▸ hreach))
    · have hmem : key ∉ idle := fun hmem => hidle ((List.mem_erase_of_ne hkey).mpr hmem)
      exact Or.inr ⟨s, exposed_singleton_iff.mpr ⟨rfl, hst.isKey_left⟩, hreach.head hst, hmem⟩

/-- Where all keys are idle, only a key on a cycle can block. -/
theorem Blocked.transGen_self {key : Symbol} (h : g.Blocked g.keys e key) :
    TransGen g.Exposes key key := by
  refine h.resolve_right fun ⟨t, ht, hreach, hkey⟩ => hkey ?_
  rw [mem_keys]
  cases hreach with
  | refl => exact ht.1
  | tail _ hstep => exact hstep.isKey

/-- A set is FIRST of an expression. -/
structure IsFirst (g : Grammar) (e : Expression) (first : SymbolSet) : Prop where
  mem_iff (a : Symbol) : a ∈ first ↔ g.Starts e a
  grounded : g.Grounded e

theorem IsFirst.nullable_iff {first : SymbolSet} (h : g.IsFirst e first) :
    first.nullable ↔ g.Vanishes e := by
  rw [SymbolSet.nullable_iff, h.mem_iff, starts_epsilon_iff]

theorem IsFirst.mem_nonEpsilon {first : SymbolSet} (h : g.IsFirst e first) :
    a ∈ first.nonEpsilon ↔ a ≠ .epsilon ∧ g.Starts e a := by
  rw [SymbolSet.mem_nonEpsilon, h.mem_iff]

end Grammar
end LL1
