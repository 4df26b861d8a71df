import LL1.Proofs.Analysis.First
import LL1.Proofs.LeftRecursion.Collapse
import LL1.Source

/-!
# What becomes of a text without empty alternatives

The analysis looks past whatever vanishes. After the elimination that is the helpers,
so it can meet a helper again behind others, although no first symbol leads back to
itself. This happens exactly if the grammar that was read collapses. Otherwise all
stages up to the table succeed, and the only thing that can go wrong there is a
conflict.
-/

namespace LL1

open Relation

variable {g : Grammar} {text : String}

namespace Grammar

theorem EpsilonFree.leadsTo_of_exposes (hfree : g.EpsilonFree) {s t : Symbol}
    (h : g.Exposes s t) : g.LeadsTo s t := by
  obtain ⟨e, he, ht, before, after, rfl, hvanishes⟩ := h
  have hbefore : .epsilon ∉ before := fun hmem => hfree.not_mem he (List.mem_append_left _ hmem)
  have hnil := hfree.eq_nil_of_derives hvanishes
  rw [withoutEpsilon_of_not_mem hbefore] at hnil
  rw [hnil] at he
  exact leadsTo_iff.mpr ⟨ht, after, he⟩

theorem not_collapses_of_not_isLeftRecursive (hrec : ¬ g.isLeftRecursive) : ¬ g.Collapses := by
  intro h
  obtain ⟨key, j, hj, hto, hfrom, _⟩ := h
  have hlead : ∀ s t, g.StepUpTo key (· = []) s t → g.LeadsTo s t := by
    intro s t hstep
    obtain ⟨_, ht, rest, _, hmem⟩ := hstep
    exact leadsTo_iff.mpr ⟨ht, rest, hmem⟩
  have hne : j ≠ key := fun heq => not_mem_keysBefore_self (heq ▸ hj)
  have hto := (reflTransGen_iff_eq_or_transGen.mp hto).resolve_left hne
  have hcycle : TransGen (g.StepUpTo key (· = [])) key key := TransGen.trans_left hto hfrom
  exact hrec (isLeftRecursive_iff.mpr ⟨key, TransGen.mono hlead _ _ hcycle⟩)

theorem EpsilonFree.exists_cycle_iff (hfree : g.EpsilonFree) :
    (∃ s, TransGen g.withoutLeftRecursion.Exposes s s) ↔ g.Collapses := by
  by_cases hrec : g.isLeftRecursive
  · obtain ⟨helper, hr⟩ := exists_rewrites hrec
    rw [hr.exists_cycle_iff hfree, hr.exists_hollow_iff hfree]
  · rw [withoutLeftRecursion_eq_self hrec]
    refine iff_of_false (fun hcycle => hrec ?_) (not_collapses_of_not_isLeftRecursive hrec)
    obtain ⟨s, hs⟩ := hcycle
    exact isLeftRecursive_iff.mpr ⟨s, TransGen.mono (fun _ _ => hfree.leadsTo_of_exposes) _ _ hs⟩

/-- What vanishes after the elimination are the keys that it added. -/
theorem EpsilonFree.vanishes_iff (hfree : g.EpsilonFree) {s : Symbol}
    (hs : g.withoutLeftRecursion.isKey s) :
    g.withoutLeftRecursion.Vanishes [s] ↔ ¬ g.isKey s := by
  by_cases hrec : g.isLeftRecursive
  · obtain ⟨helper, hr⟩ := exists_rewrites hrec
    have hne : s ≠ .epsilon := by
      rcases (hr.isKey_iff s).mp hs with hkey | ⟨owner, hh⟩
      · exact hfree.ne_epsilon hkey
      · exact hr.helper_ne_epsilon hh
    rw [hr.vanishes_singleton_iff_helper hfree hne]
    constructor
    · intro h hkey
      obtain ⟨owner, hh⟩ := h
      exact hr.not_mem_symbols hh (mem_symbols_of_isKey hkey)
    · exact ((hr.isKey_iff s).mp hs).resolve_left
  · rw [withoutLeftRecursion_eq_self hrec] at hs ⊢
    refine iff_of_false (fun h => ?_) (not_not_intro hs)
    have hbare : Expression.withoutEpsilon [s] = [s] :=
      Expression.withoutEpsilon_cons_of_ne (hfree.ne_epsilon hs) []
    rw [Vanishes, hbare] at h
    exact absurd (hfree.eq_nil_of_derives h) (List.cons_ne_nil s [])

/-- Elimination adds no key that is the empty string. -/
theorem not_isKey_epsilon_withoutLeftRecursion (h : ¬ g.isKey .epsilon) :
    ¬ g.withoutLeftRecursion.isKey .epsilon := by
  by_cases hrec : g.isLeftRecursive
  · obtain ⟨helper, hr⟩ := exists_rewrites hrec
    rw [hr.isKey_iff, not_or, not_exists]
    exact ⟨h, fun owner hh => hr.helper_ne_epsilon hh rfl⟩
  · rwa [withoutLeftRecursion_eq_self hrec]

end Grammar

namespace Source

open Grammar

theorem grammar_of_read (h : Bnf.read text = .ok g) :
    (Source.mk text false).grammar = .ok g.withoutLeftRecursion := by
  unfold grammar read
  rw [h]
  rfl

theorem analysis_of_read (h : Bnf.read text = .ok g) :
    (Source.mk text false).analysis = g.withoutLeftRecursion.analysis := by
  unfold analysis
  rw [grammar_of_read h]
  rfl

theorem table_of_read (h : Bnf.read text = .ok g) :
    (Source.mk text false).table = g.withoutLeftRecursion.table := by
  unfold table
  rw [grammar_of_read h]
  rfl

end Source

/-- If the analysis succeeds, only a conflict can be wrong with the table. -/
theorem Grammar.exists_conflict_of_table {a : Analysis} (ha : g.analysis = .ok a)
    {failure : Failure} (h : g.table = .error failure) : ∃ c, failure = .conflict c := by
  unfold Grammar.table at h
  rw [ha] at h
  have htable : a.table.mapError .conflict = .error failure := h
  obtain ⟨c, _, rfl⟩ := exists_of_mapError_eq_error htable
  exact ⟨c, rfl⟩

namespace Source

open Grammar

/-- On a text without empty alternatives the analysis succeeds, its nullable keys are the
added ones and the table fails only with a conflict, exactly if the grammar does not
collapse. -/
theorem succeeds_iff_not_collapses (h : Bnf.read text = .ok g)
    (hfree : ∀ key, ∀ e ∈ g.alternatives key, .epsilon ∉ e) :
    ((∃ a, (Source.mk text false).analysis = .ok a ∧
        ∀ s, a.nullable s ↔ g.withoutLeftRecursion.isKey s ∧ ¬ g.isKey s) ∧
      ∀ failure, (Source.mk text false).table = .error failure → ∃ c, failure = .conflict c) ↔
    ¬ g.Collapses := by
  have htextual := Bnf.isTextual_of_read h
  have hfree : g.EpsilonFree :=
    ⟨htextual.not_isKey_epsilon, htextual.ne_nil, fun he => hfree _ _ he⟩
  have hepsilon := not_isKey_epsilon_withoutLeftRecursion hfree.not_isKey
  rw [analysis_of_read h, table_of_read h, ← hfree.exists_cycle_iff, ← exists_analyze_iff hepsilon]
  constructor
  · intro hmeets
    obtain ⟨⟨a, ha, _⟩, _⟩ := hmeets
    exact ⟨a, mapError_eq_ok_iff.mp ha⟩
  · intro hsucceeds
    obtain ⟨a, ha⟩ := hsucceeds
    have hanalysis : g.withoutLeftRecursion.analysis = .ok a := mapError_eq_ok_iff.mpr ha
    refine ⟨⟨a, hanalysis, fun s => ?_⟩, fun failure => exists_conflict_of_table hanalysis⟩
    rw [nullable_iff hepsilon ha]
    exact and_congr_right hfree.vanishes_iff

/-- Sums of products, with left recursion that does not collapse. -/
def sumsText : String := "<E> ::= <E> \"+\" <T> | <T>\n<T> ::= <T> \"*\" \"n\" | \"n\""

def sums : Grammar :=
  let e := Symbol.nonTerminal "E"
  let t := Symbol.nonTerminal "T"
  ((Grammar.ofStart e).add e [[e, .terminal "+", t], [t]]).add t
    [[t, .terminal "*", .terminal "n"], [.terminal "n"]]

theorem succeeds_sums :
    ((∃ a, (Source.mk sumsText false).analysis = .ok a ∧
        ∀ s, a.nullable s ↔ sums.withoutLeftRecursion.isKey s ∧ ¬ sums.isKey s) ∧
      ∀ failure, (Source.mk sumsText false).table = .error failure →
        ∃ c, failure = .conflict c) ↔
    ¬ sums.Collapses := by
  have hfull : ∀ key ∈ sums.keys, ∀ e ∈ sums.alternatives key, .epsilon ∉ e := by decide +kernel
  exact succeeds_iff_not_collapses (by decide +kernel) fun key e he =>
    hfull key (mem_keys.mpr (isKey_of_mem_alternatives he)) e he

/-- Two keys that derive each other alone. The first one is left recursive besides, and the
helper of the second one then meets itself behind the helper of the first one. -/
def twisted : Grammar :=
  let a := Symbol.nonTerminal "A"
  let b := Symbol.nonTerminal "B"
  ((Grammar.ofStart a).add a [[a, .terminal "x"], [b]]).add b [[a], [.terminal "b"]]

theorem cyclicFirst_twisted :
    Bnf.read "<A> ::= <A> \"x\" | <B>\n<B> ::= <A> | \"b\"" = .ok twisted ∧
      (∀ key ∈ twisted.keys, ∀ e ∈ twisted.alternatives key, .epsilon ∉ e) ∧
      ((Source.mk "<A> ::= <A> \"x\" | <B>\n<B> ::= <A> | \"b\"" false).table.map fun _ => ()) =
        .error (.cyclicFirst (.nonTerminal "B'")) :=
  ⟨by decide +kernel, by decide +kernel, by decide +kernel⟩

end Source
end LL1
