import LL1.Proofs.LeftRecursion.Symbols
import LL1.Proofs.Machine.Acceptance
import LL1.Proofs.Source

/-!
# What a table from a text recognizes

A table is built after the elimination of left recursion, which keeps what the start
symbol derives. Tokens are in quotation marks and keys in angle brackets, before and
after the elimination. A run of the table therefore accepts the tokens that are derived
in the grammar that was read.
-/

namespace LL1

open Relation

variable {g : Grammar} {text : String} {t : Table} {tokens : List String}

namespace Grammar

/-- A table that is built leaves the exposed keys no cycle. -/
theorem not_exists_cycle_of_table (hepsilon : ¬ g.isKey .epsilon) (h : g.table = .ok t) :
    ¬ ∃ s, TransGen g.Exposes s s := by
  obtain ⟨a, ha, _⟩ := bind_eq_ok_iff.mp h
  exact (exists_analyze_iff hepsilon).mp ⟨a, mapError_eq_ok_iff.mp ha⟩

theorem IsTextual.ofTokens_spec (hg : g.IsTextual) (h : g.table = .ok t) (tokens : List String) :
    (Run.ofTokens t tokens).ending ≠ .endless ∧
      ((Run.ofTokens t tokens).isAccepting ↔
        tokens ≠ [] ∧ g.Derives [g.start] (tokens.map Symbol.terminal)) := by
  have hepsilon := hg.not_isKey_epsilon
  exact Run.ofTokens_spec hg (Table.predictive_of_table hepsilon h)
    (not_exists_cycle_of_table hepsilon h) tokens

/-- The elimination keeps the token sequences that the start symbol derives. -/
theorem IsTextual.derives_tokens_iff (hg : g.IsTextual) :
    g.withoutLeftRecursion.Derives [g.start] (tokens.map Symbol.terminal) ↔
      g.Derives [g.start] (tokens.map Symbol.terminal) := by
  have htokens : ∀ {r : Grammar}, r.IsTextual →
      ∀ s ∈ tokens.map Symbol.terminal, ¬ r.isKey s := by
    intro r hr s hs
    obtain ⟨literal, _, rfl⟩ := List.mem_map.mp hs
    exact hr.not_isKey_terminal literal
  have hlanguage : tokens.map Symbol.terminal ∈ g.withoutLeftRecursion.language g.start ↔
      tokens.map Symbol.terminal ∈ g.language g.start := by
    rw [language_withoutLeftRecursion hg.isKey_start]
  rwa [mem_language, mem_language, and_iff_left (htokens hg.withoutLeftRecursion),
    and_iff_left (htokens hg)] at hlanguage

end Grammar

namespace Source

/-- The stages in front of a table that is built have succeeded. -/
theorem exists_read_of_table (h : (Source.mk text false).table = .ok t) :
    ∃ g, Bnf.read text = .ok g ∧ g.withoutLeftRecursion.table = .ok t := by
  obtain ⟨prepared, hgrammar, htable⟩ := bind_eq_ok_iff.mp h
  obtain ⟨g, hread, hprepared⟩ := map_eq_ok_iff.mp hgrammar
  refine ⟨g, mapError_eq_ok_iff.mp hread, ?_⟩
  rw [← hprepared] at htable
  exact htable

/-- If the table of a text is built, its runs end and accept exactly the token sequences,
other than the empty one, that the start symbol derives in the grammar of the text. -/
theorem isAccepting_iff_derives (h : (Source.mk text false).table = .ok t) :
    ∃ g, Bnf.read text = .ok g ∧ ∀ tokens,
      (Run.ofTokens t tokens).ending ≠ .endless ∧
        ((Run.ofTokens t tokens).isAccepting ↔
          tokens ≠ [] ∧ g.Derives [g.start] (tokens.map Symbol.terminal)) := by
  obtain ⟨g, hread, htable⟩ := exists_read_of_table h
  have hg := Bnf.isTextual_of_read hread
  refine ⟨g, hread, fun tokens => ?_⟩
  have hrun := hg.withoutLeftRecursion.ofTokens_spec htable tokens
  rwa [g.start_withoutLeftRecursion, hg.derives_tokens_iff] at hrun

/-- A run over a left-recursive grammar accepts a sum, and so the sum is derived. -/
theorem derives_of_accepted_sum :
    ((Source.mk sumsText false).table.map fun t =>
        (Run.ofTokens t ["n", "+", "n", "*", "n"]).isAccepting) = .ok true ∧
      ∃ g, Bnf.read sumsText = .ok g ∧
        g.Derives [g.start] (["n", "+", "n", "*", "n"].map Symbol.terminal) := by
  have haccepts : ((Source.mk sumsText false).table.map fun t =>
      (Run.ofTokens t ["n", "+", "n", "*", "n"]).isAccepting) = .ok true := by
    decide +kernel
  obtain ⟨t, htable, hrun⟩ := map_eq_ok_iff.mp haccepts
  obtain ⟨g, hread, hall⟩ := isAccepting_iff_derives htable
  exact ⟨haccepts, g, hread, ((hall _).2.mp hrun).2⟩

end Source
end LL1
