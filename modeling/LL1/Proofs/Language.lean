import LL1.Proofs.Derivation
import Mathlib

/-!
# Languages of symbols

The language of a symbol holds the forms without keys that it derives. Under a
valuation of the symbols an expression denotes the product of the values of its
symbols, and a list of alternatives the sum of the values of its members.

A valuation is closed if every symbol without a rule holds itself and every key
holds what its alternatives denote. The languages are a closed valuation, and they
are contained in every other one. Both inclusions of a comparison of two grammars
can therefore be shown by a suitable closed valuation, without an induction over
derivations.
-/

namespace LL1

/-- A language for every symbol. -/
abbrev Valuation := Symbol → Language Symbol

namespace Valuation

open Expression

variable {v v' : Valuation} {e f : Expression} {es fs : List Expression} {l m : Language Symbol}

/-- What an expression denotes. Empty-string symbols denote nothing. -/
def value (v : Valuation) (e : Expression) : Language Symbol := ((withoutEpsilon e).map v).prod

/-- What a list of alternatives denotes. -/
def total (v : Valuation) (es : List Expression) : Language Symbol := (es.map v.value).sum

@[simp]
theorem value_nil : v.value [] = 1 := rfl

@[simp]
theorem value_epsilon : v.value Expression.epsilon = 1 := rfl

theorem value_append : v.value (e ++ f) = v.value e * v.value f := by
  rw [value, withoutEpsilon_append, List.map_append, List.prod_append]
  rfl

theorem value_cons {s : Symbol} (h : s ≠ .epsilon) : v.value (s :: e) = v s * v.value e := by
  rw [value, withoutEpsilon_cons_of_ne h, List.map_cons, List.prod_cons]
  rfl

theorem value_join : v.value (e.join f) = v.value e * v.value f := by
  rw [← value_append, value, withoutEpsilon_join, ← withoutEpsilon_append]
  rfl

@[simp]
theorem total_nil : v.total [] = 0 := rfl

@[simp]
theorem total_cons : v.total (e :: es) = v.value e + v.total es := rfl

@[simp]
theorem total_append : v.total (es ++ fs) = v.total es + v.total fs := by
  rw [total, List.map_append, List.sum_append]
  rfl

theorem total_le_iff : v.total es ≤ l ↔ ∀ e ∈ es, v.value e ≤ l := by
  induction es with
  | nil => simp
  | cons e es ih => rw [total_cons, add_le_iff, ih, List.forall_mem_cons]

theorem value_le_total (h : e ∈ es) : v.value e ≤ v.total es := total_le_iff.mp le_rfl e h

theorem total_mul_le_iff : v.total es * m ≤ l ↔ ∀ e ∈ es, v.value e * m ≤ l := by
  induction es with
  | nil => simp
  | cons e es ih => rw [total_cons, add_mul, add_le_iff, ih, List.forall_mem_cons]

theorem mul_total_le_iff : m * v.total es ≤ l ↔ ∀ e ∈ es, m * v.value e ≤ l := by
  induction es with
  | nil => simp
  | cons e es ih => rw [total_cons, mul_add, add_le_iff, ih, List.forall_mem_cons]

theorem total_map_join : v.total (es.map (·.join f)) = v.total es * v.value f := by
  induction es with
  | nil => simp
  | cons e es ih => rw [List.map_cons, total_cons, total_cons, ih, value_join, add_mul]

theorem prod_map_mono (h : ∀ s, v s ≤ v' s) (a : List Symbol) :
    (a.map v).prod ≤ (a.map v').prod := by
  induction a with
  | nil => exact le_rfl
  | cons s a ih =>
    rw [List.map_cons, List.map_cons, List.prod_cons, List.prod_cons]
    exact mul_le_mul' (h s) ih

theorem total_mono (h : ∀ s, v s ≤ v' s) : v.total es ≤ v'.total es := by
  rw [total_le_iff]
  exact fun e he => (prod_map_mono h _).trans (value_le_total he)

theorem value_congr (h : ∀ s ∈ e, s ≠ .epsilon → v s = v' s) : v.value e = v'.value e := by
  unfold value
  refine congrArg List.prod (List.map_congr_left fun s hs => ?_)
  obtain ⟨hs, hne⟩ := mem_withoutEpsilon.mp hs
  exact h s hs hne

theorem total_congr (h : ∀ e ∈ es, ∀ s ∈ e, s ≠ .epsilon → v s = v' s) :
    v.total es = v'.total es :=
  congrArg List.sum (List.map_congr_left fun e he => value_congr (h e he))

end Valuation

namespace Grammar

open LL1.Valuation

variable {g : Grammar} {s : Symbol} {w : List Symbol} {v : Valuation}

/-- The forms without keys that a symbol derives. -/
def language (g : Grammar) : Valuation := fun s => {w | g.Derives [s] w ∧ ∀ t ∈ w, ¬ g.isKey t}

theorem mem_language : w ∈ g.language s ↔ g.Derives [s] w ∧ ∀ t ∈ w, ¬ g.isKey t := Iff.rfl

theorem language_of_not_isKey (h : ¬ g.isKey s) : g.language s = {[s]} := by
  ext w
  rw [mem_language, derives_singleton_iff_of_not_isKey h]
  constructor
  · exact fun hw => hw.1
  · intro hw
    obtain rfl : w = [s] := hw
    exact ⟨rfl, fun t ht => List.mem_singleton.mp ht ▸ h⟩

theorem mem_prod_language {a : List Symbol} :
    w ∈ (a.map g.language).prod ↔ g.Derives a w ∧ ∀ t ∈ w, ¬ g.isKey t := by
  induction a generalizing w with
  | nil =>
    rw [List.map_nil, List.prod_nil, Language.mem_one, derives_nil_iff]
    refine ⟨fun h => ⟨h, fun t ht => ?_⟩, fun h => h.1⟩
    rw [h] at ht
    simp at ht
  | cons s a ih =>
    rw [List.map_cons, List.prod_cons, Language.mem_mul, derives_cons_iff]
    constructor
    · rintro ⟨u, hu, x, hx, rfl⟩
      obtain ⟨hx, hxkeys⟩ := ih.mp hx
      refine ⟨⟨u, x, rfl, hu.1, hx⟩, fun t ht => ?_⟩
      exact (List.mem_append.mp ht).elim (hu.2 t) (hxkeys t)
    · rintro ⟨⟨u, x, rfl, hu, hx⟩, hkeys⟩
      exact ⟨u, ⟨hu, fun t ht => hkeys t (List.mem_append_left x ht)⟩,
        x, ih.mpr ⟨hx, fun t ht => hkeys t (List.mem_append_right u ht)⟩, rfl⟩

/-- A key holds exactly what its alternatives denote. -/
theorem language_eq_total (h : g.isKey s) : g.language s = g.language.total (g.alternatives s) := by
  apply le_antisymm
  · intro w hw
    obtain ⟨hw, hkeys⟩ := hw
    rcases derives_singleton_iff.mp hw with rfl | ⟨e, he, hew⟩
    · exact absurd h (hkeys s (List.mem_singleton_self s))
    · exact value_le_total he (mem_prod_language.mpr ⟨hew, hkeys⟩)
  · rw [total_le_iff]
    intro e he w hw
    obtain ⟨hw, hkeys⟩ := mem_prod_language.mp hw
    exact ⟨(derives_of_mem_alternatives he).trans hw, hkeys⟩

/-- A valuation that holds what the rules of a grammar require. -/
structure Closes (g : Grammar) (v : Valuation) : Prop where
  self_mem {s : Symbol} : ¬ g.isKey s → [s] ∈ v s
  total_le {s : Symbol} : g.isKey s → v.total (g.alternatives s) ≤ v s

theorem Closes.mem_prod_self (h : g.Closes v) (hkeys : ∀ t ∈ w, ¬ g.isKey t) :
    w ∈ (w.map v).prod := by
  induction w with
  | nil => exact Language.nil_mem_one
  | cons s w ih =>
    rw [List.map_cons, List.prod_cons]
    exact Language.append_mem_mul (h.self_mem (hkeys s List.mem_cons_self))
      (ih fun t ht => hkeys t (List.mem_cons_of_mem s ht))

theorem Closes.mem_prod_of_derives (h : g.Closes v) {a : List Symbol} (hderives : g.Derives a w)
    (hkeys : ∀ t ∈ w, ¬ g.isKey t) : w ∈ (a.map v).prod := by
  induction hderives using Relation.ReflTransGen.head_induction_on with
  | refl => exact h.mem_prod_self hkeys
  | head hstep _ ih =>
    obtain ⟨before, after, he⟩ := hstep
    have hle := (value_le_total he).trans (h.total_le (isKey_of_mem_alternatives he))
    rw [List.map_append, List.map_append, List.prod_append, List.prod_append] at ih
    rw [List.map_append, List.map_cons, List.prod_append, List.prod_cons]
    exact mul_le_mul' le_rfl (mul_le_mul' hle le_rfl) ih

/-- The languages are the least closed valuation. -/
theorem Closes.language_le (h : g.Closes v) (s : Symbol) : g.language s ≤ v s := by
  intro w hw
  have hmem := h.mem_prod_of_derives hw.1 hw.2
  rw [List.map_cons, List.map_nil, List.prod_singleton] at hmem
  exact hmem

end Grammar
end LL1
