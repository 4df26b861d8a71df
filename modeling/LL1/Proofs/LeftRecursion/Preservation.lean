import LL1.Proofs.Language
import LL1.Proofs.LeftRecursion.Rewriting

/-!
# Elimination preserves languages

Every key derives the same forms without keys before and after the elimination.

What a key derives afterwards, it derived before: a helper is read as all that can
follow the forms of its key, and under this reading the new grammar asks for
nothing that the old languages do not hold. What a key derived before, it derives
afterwards: a helper repeats its tails, so appending a tail to a form of its key
gives a form of its key again.
-/

namespace LL1

open Elimination Computability

namespace Valuation

variable {v : Valuation} {s : Symbol} {body es : List Expression} {bodies : List Body}

theorem total_substitute_le (h : v.total body ≤ v s) :
    v.total (substitute s body es) ≤ v.total es := by
  rw [total_le_iff]
  intro e he
  rcases mem_substitute.mp he with ⟨hs, rest, hmem, replacement, hreplacement, rfl⟩ | ⟨he, _⟩
  · calc v.value (replacement.join rest)
        = v.value replacement * v.value rest := value_join
      _ ≤ v s * v.value rest := mul_le_mul' ((value_le_total hreplacement).trans h) le_rfl
      _ = v.value (s :: rest) := (value_cons hs).symm
      _ ≤ v.total es := value_le_total hmem
  · exact value_le_total he

theorem total_le_substitute (h : v s ≤ v.total body) :
    v.total es ≤ v.total (substitute s body es) := by
  rw [total_le_iff]
  intro e he
  by_cases hled : e.isLedBy s
  · obtain ⟨hs, rest, rfl⟩ := Expression.isLedBy_iff.mp hled
    have hbody : v.total body * v.value rest ≤ v.total (substitute s body es) := by
      rw [total_mul_le_iff]
      intro replacement hreplacement
      rw [← value_join]
      exact value_le_total (mem_substitute.mpr
        (Or.inl ⟨hs, rest, he, replacement, hreplacement, rfl⟩))
    rw [value_cons hs]
    exact (mul_le_mul' h le_rfl).trans hbody
  · exact value_le_total (mem_substitute.mpr (Or.inr ⟨he, hled⟩))

theorem total_expandLeading_le (h : ∀ b ∈ bodies, v.total b.2 ≤ v b.1) :
    v.total (expandLeading bodies es) ≤ v.total es := by
  induction bodies generalizing es with
  | nil => exact le_rfl
  | cons b bodies ih =>
    rw [List.forall_mem_cons] at h
    exact (ih h.2).trans (total_substitute_le h.1)

theorem total_le_expandLeading (h : ∀ b ∈ bodies, v b.1 ≤ v.total b.2) :
    v.total es ≤ v.total (expandLeading bodies es) := by
  induction bodies generalizing es with
  | nil => exact le_rfl
  | cons b bodies ih =>
    rw [List.forall_mem_cons] at h
    exact (total_le_substitute h.1).trans (ih h.2)

theorem total_repetition {helper : Symbol} (h : helper ≠ .epsilon) :
    v.total (repetition helper es) = v.total es * v helper + 1 := by
  rw [repetition, total_append, total_map_join, value_cons h, value_nil, mul_one, total_cons,
    total_nil, value_epsilon, add_zero]

end Valuation

/-- All that can follow every member of a language without leaving it. -/
def residual (l : Language Symbol) : Language Symbol := {w | ∀ u ∈ l, u ++ w ∈ l}

theorem le_residual_iff {l m : Language Symbol} : m ≤ residual l ↔ l * m ≤ l := by
  constructor
  · intro h w hw
    obtain ⟨u, hu, x, hx, rfl⟩ := Language.mem_mul.mp hw
    exact h hx u hu
  · intro h w hw u hu
    exact h (Language.append_mem_mul hu hw)

theorem mul_residual_le (l : Language Symbol) : l * residual l ≤ l := le_residual_iff.mp le_rfl

namespace Grammar

open LL1.Valuation

variable {g r : Grammar} {helper : Symbol → Option Symbol} {key h s : Symbol}

/-! ## Nothing is gained -/

/-- The old languages, with a helper read as all that can follow the forms of its
key. -/
def readHelpers (g : Grammar) (helper : Symbol → Option Symbol) : Valuation := fun s =>
  {w | (∀ key, helper key = some s → w ∈ residual (g.language key)) ∧
    ((∀ key, helper key ≠ some s) → w ∈ g.language s)}

theorem Rewrites.readHelpers_helper (hr : Rewrites g r helper) (hh : helper key = some h) :
    g.readHelpers helper h = residual (g.language key) := by
  ext w
  refine ⟨fun hw => hw.1 key hh, fun hw => ⟨fun key' hh' => ?_, fun hnone => absurd hh (hnone key)⟩⟩
  rw [hr.helper_injective hh' hh]
  exact hw

theorem readHelpers_of_ne (hs : ∀ key, helper key ≠ some s) :
    g.readHelpers helper s = g.language s := by
  ext w
  exact ⟨fun hw => hw.2 hs, fun hw => ⟨fun key hh => absurd hh (hs key), fun _ => hw⟩⟩

theorem Rewrites.readHelpers_of_isKey (hr : Rewrites g r helper) (hkey : g.isKey key) :
    g.readHelpers helper key = g.language key :=
  readHelpers_of_ne (hr.helper_ne_of_mem_symbols (mem_symbols_of_isKey hkey))

theorem Rewrites.total_alternatives (hr : Rewrites g r helper) (hkey : g.isKey key) :
    (g.readHelpers helper).total (g.alternatives key) = g.language key := by
  rw [language_eq_total hkey]
  refine total_congr fun e he s hs _ => readHelpers_of_ne ?_
  exact hr.helper_ne_of_mem_symbols (mem_symbols_of_mem_alternatives he hs)

/-- The value of the expanded alternatives bounds the value of the final ones. -/
theorem Rewrites.total_le_of_expanded_le (hr : Rewrites g r helper) (hkey : g.isKey key)
    (h : (g.readHelpers helper).total (g.expanded r key) ≤ g.language key) :
    (g.readHelpers helper).total (r.alternatives key) ≤ g.language key := by
  have hothers : (g.readHelpers helper).total (otherAlternatives key (g.expanded r key)) ≤
      g.language key := by
    rw [total_le_iff] at h ⊢
    exact fun e he => h e (mem_otherAlternatives.mp he).1
  cases hh : helper key with
  | none => rwa [(hr.alternatives_plain hkey hh).2]
  | some new =>
    rw [(hr.alternatives_helped hh).2.1, total_map_join, value_cons (hr.helper_ne_epsilon hh),
      value_nil, mul_one, hr.readHelpers_helper hh]
    exact (mul_le_mul' hothers le_rfl).trans (mul_residual_le _)

theorem Rewrites.total_expanded_le (hr : Rewrites g r helper) (hkey : g.isKey key) :
    (g.readHelpers helper).total (g.expanded r key) ≤ g.language key := by
  revert key
  apply keys_induction
  intro key hkey ih
  rw [← hr.total_alternatives hkey]
  refine total_expandLeading_le fun b hb => ?_
  obtain ⟨j, hj, rfl⟩ := List.mem_map.mp hb
  have hjkey := isKey_of_mem_keysBefore hj
  rw [hr.readHelpers_of_isKey hjkey]
  exact hr.total_le_of_expanded_le hjkey (ih j hj)

theorem Rewrites.closes_readHelpers (hr : Rewrites g r helper) :
    r.Closes (g.readHelpers helper) where
  self_mem {s} hs := by
    rw [hr.isKey_iff, not_or, not_exists] at hs
    rw [readHelpers_of_ne hs.2, language_of_not_isKey hs.1]
    exact rfl
  total_le {s} hs := by
    rcases (hr.isKey_iff s).mp hs with hkey | ⟨key, hh⟩
    · rw [hr.readHelpers_of_isKey hkey]
      exact hr.total_le_of_expanded_le hkey (hr.total_expanded_le hkey)
    · rw [(hr.alternatives_helped hh).2.2, total_repetition (hr.helper_ne_epsilon hh),
        hr.readHelpers_helper hh, add_le_iff, le_residual_iff, le_residual_iff, mul_one,
        ← mul_assoc]
      refine ⟨(mul_le_mul' ?_ le_rfl).trans (mul_residual_le _), le_rfl⟩
      rw [mul_total_le_iff]
      intro tail htail
      obtain ⟨hne, _, hmem⟩ := mem_recursiveTails.mp htail
      rw [← hr.readHelpers_of_isKey (hr.isKey_of_helper hh), ← value_cons hne,
        hr.readHelpers_of_isKey (hr.isKey_of_helper hh)]
      exact (value_le_total hmem).trans (hr.total_expanded_le (hr.isKey_of_helper hh))

/-! ## Nothing is lost -/

theorem Rewrites.language_helper_eq (hr : Rewrites g r helper) (hh : helper key = some h) :
    r.language h = r.language.total (recursiveTails key (g.expanded r key)) * r.language h + 1 := by
  rw [← total_repetition (hr.helper_ne_epsilon hh), ← (hr.alternatives_helped hh).2.2]
  exact language_eq_total (hr.isKey_helper hh)

theorem Rewrites.kstar_le_language_helper (hr : Rewrites g r helper) (hh : helper key = some h) :
    (r.language.total (recursiveTails key (g.expanded r key)))∗ ≤ r.language h := by
  have hle := (hr.language_helper_eq hh).ge
  rw [add_le_iff] at hle
  exact kstar_le_of_mul_le_right hle.2 hle.1

/-- Holding only the repetitions of its tails is enough for a helper, so by leastness
it holds nothing else. -/
theorem Rewrites.language_helper (hr : Rewrites g r helper) (hh : helper key = some h) :
    r.language h = (r.language.total (recursiveTails key (g.expanded r key)))∗ := by
  set tails := r.language.total (recursiveTails key (g.expanded r key)) with htails
  have hle : ∀ s, Function.update r.language h tails∗ s ≤ r.language s := by
    intro s
    by_cases hs : s = h
    · rw [hs, Function.update_self]
      exact hr.kstar_le_language_helper hh
    · rw [Function.update_of_ne hs]
  have hcloses : r.Closes (Function.update r.language h tails∗) := by
    constructor
    · intro s hs
      have hne : s ≠ h := fun heq => hs (heq ▸ hr.isKey_helper hh)
      rw [Function.update_of_ne hne, language_of_not_isKey hs]
      exact rfl
    · intro s hs
      by_cases heq : s = h
      · rw [heq, (hr.alternatives_helped hh).2.2, total_repetition (hr.helper_ne_epsilon hh),
          Function.update_self]
        refine add_le ((mul_le_mul' (total_mono hle) le_rfl).trans ?_) one_le_kstar
        exact mul_kstar_le_kstar
      · rw [Function.update_of_ne heq]
        exact (total_mono hle).trans (language_eq_total hs).ge
  have hleast := hcloses.language_le h
  rw [Function.update_self] at hleast
  exact le_antisymm hleast (hr.kstar_le_language_helper hh)

/-- A key with a helper holds what does not start with it, followed by repetitions of
its tails. -/
theorem Rewrites.language_helped (hr : Rewrites g r helper) (hh : helper key = some h) :
    r.language key = r.language.total (otherAlternatives key (g.expanded r key)) *
      (r.language.total (recursiveTails key (g.expanded r key)))∗ := by
  rw [language_eq_total (hr.isKey_of_isKey (hr.isKey_of_helper hh)),
    (hr.alternatives_helped hh).2.1, total_map_join, value_cons (hr.helper_ne_epsilon hh), value_nil,
    mul_one, hr.language_helper hh]

theorem Rewrites.total_otherAlternatives_le (hr : Rewrites g r helper) (hkey : g.isKey key) :
    r.language.total (otherAlternatives key (g.expanded r key)) ≤ r.language key := by
  cases hh : helper key with
  | none =>
    rw [← (hr.alternatives_plain hkey hh).2]
    exact (language_eq_total (hr.isKey_of_isKey hkey)).ge
  | some new =>
    rw [hr.language_helped hh]
    exact le_mul_of_one_le_right' one_le_kstar

/-- Appending a tail to a form of its key gives a form of the key. -/
theorem Rewrites.mul_recursiveTails_le (hr : Rewrites g r helper) (hkey : g.isKey key) :
    r.language key * r.language.total (recursiveTails key (g.expanded r key)) ≤
      r.language key := by
  cases hh : helper key with
  | none =>
    rw [(hr.alternatives_plain hkey hh).1, total_nil, mul_zero]
    exact zero_le
  | some new =>
    rw [hr.language_helped hh, mul_assoc]
    exact mul_le_mul' le_rfl kstar_mul_le_kstar

theorem Rewrites.total_expanded_le_language (hr : Rewrites g r helper) (hkey : g.isKey key) :
    r.language.total (g.expanded r key) ≤ r.language key := by
  rw [total_le_iff]
  intro e he
  by_cases hled : e.isLedBy key
  · obtain ⟨hne, rest, rfl⟩ := Expression.isLedBy_iff.mp hled
    rw [value_cons hne]
    by_cases hrest : rest = []
    · rw [hrest, value_nil, mul_one]
    · have hmem := mem_recursiveTails.mpr ⟨hne, hrest, he⟩
      exact (mul_le_mul' le_rfl (value_le_total hmem)).trans (hr.mul_recursiveTails_le hkey)
  · have hmem := mem_otherAlternatives.mpr ⟨he, hled⟩
    exact (value_le_total hmem).trans (hr.total_otherAlternatives_le hkey)

theorem Rewrites.total_alternatives_le (hr : Rewrites g r helper) (hkey : g.isKey key) :
    r.language.total (g.alternatives key) ≤ r.language key := by
  refine (total_le_expandLeading fun b hb => ?_).trans (hr.total_expanded_le_language hkey)
  obtain ⟨j, hj, rfl⟩ := List.mem_map.mp hb
  exact (language_eq_total (hr.isKey_of_isKey (isKey_of_mem_keysBefore hj))).le

/-- The new languages, with every symbol that is not an old one read as itself. -/
def readOriginals (g r : Grammar) : Valuation := fun s =>
  if s ∈ g.symbols then r.language s else {[s]}

theorem Rewrites.closes_readOriginals (hr : Rewrites g r helper) :
    g.Closes (g.readOriginals r) where
  self_mem {s} hs := by
    unfold readOriginals
    split
    · rename_i hmem
      have hnot : ¬ r.isKey s := by
        rw [hr.isKey_iff, not_or, not_exists]
        exact ⟨hs, hr.helper_ne_of_mem_symbols hmem⟩
      rw [language_of_not_isKey hnot]
      exact rfl
    · exact rfl
  total_le {s} hs := by
    have hcongr : (g.readOriginals r).total (g.alternatives s) =
        r.language.total (g.alternatives s) :=
      total_congr fun e he t ht _ => if_pos (mem_symbols_of_mem_alternatives he ht)
    rw [hcongr, readOriginals, if_pos (mem_symbols_of_isKey hs)]
    exact hr.total_alternatives_le hs

theorem Rewrites.language_eq (hr : Rewrites g r helper) (hkey : g.isKey key) :
    r.language key = g.language key := by
  apply le_antisymm
  · have h := hr.closes_readHelpers.language_le key
    rwa [hr.readHelpers_of_isKey hkey] at h
  · have h := hr.closes_readOriginals.language_le key
    rwa [readOriginals, if_pos (mem_symbols_of_isKey hkey)] at h

theorem language_withoutLeftRecursion (hkey : g.isKey key) :
    g.withoutLeftRecursion.language key = g.language key := by
  by_cases hrec : g.isLeftRecursive
  · obtain ⟨helper, hr⟩ := exists_rewrites hrec
    exact hr.language_eq hkey
  · rw [withoutLeftRecursion_eq_self hrec]

theorem not_isKey_withoutLeftRecursion (hs : s ∈ g.symbols) (hnot : ¬ g.isKey s) :
    ¬ g.withoutLeftRecursion.isKey s := by
  by_cases hrec : g.isLeftRecursive
  · obtain ⟨helper, hr⟩ := exists_rewrites hrec
    rw [hr.isKey_iff, not_or, not_exists]
    exact ⟨hnot, hr.helper_ne_of_mem_symbols hs⟩
  · rwa [withoutLeftRecursion_eq_self hrec]

/-- Of the strings over the symbols of a grammar that are neither keys nor empty,
every key of the grammar derives the same after the elimination as before. -/
theorem derives_withoutLeftRecursion_iff {w : List Symbol} (hkey : g.isKey key)
    (hw : ∀ s ∈ w, s ∈ g.terminals) :
    g.withoutLeftRecursion.Derives [key] w ↔ g.Derives [key] w := by
  have hbefore : ∀ s ∈ w, ¬ g.isKey s := fun s hs => not_isKey_of_mem_terminals (hw s hs)
  have hafter : ∀ s ∈ w, ¬ g.withoutLeftRecursion.isKey s := fun s hs =>
    not_isKey_withoutLeftRecursion (mem_symbols_of_mem_terminals (hw s hs)) (hbefore s hs)
  have hlanguage : w ∈ g.withoutLeftRecursion.language key ↔ w ∈ g.language key := by
    rw [language_withoutLeftRecursion hkey]
  rwa [mem_language, mem_language, and_iff_left hafter, and_iff_left hbefore] at hlanguage

/-- Two keys that lead to each other and to themselves, with an empty alternative and
with empty-string symbols inside other ones. -/
def tangled : Grammar :=
  let a := Symbol.nonTerminal "A"
  let s := Symbol.nonTerminal "S"
  ((Grammar.ofStart s).add s [[a, .terminal "x"], [s], [.epsilon, .terminal "y"]]).add a
    [[s, .epsilon, a], [a, .terminal "z"], Expression.epsilon]

theorem derives_tangled_iff :
    tangled.isKey (.nonTerminal "S") ∧
      (∀ s ∈ ["y", "z", "x"].map Symbol.terminal, s ∈ tangled.terminals) ∧
      (tangled.withoutLeftRecursion.Derives [.nonTerminal "S"] (["y", "z", "x"].map .terminal) ↔
        tangled.Derives [.nonTerminal "S"] (["y", "z", "x"].map .terminal)) :=
  ⟨by decide +kernel, by decide +kernel,
    derives_withoutLeftRecursion_iff (by decide +kernel) (by decide +kernel)⟩

end Grammar
end LL1
