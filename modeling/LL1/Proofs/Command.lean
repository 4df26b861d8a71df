import LL1.Command
import LL1.Proofs.Analysis.Failure
import LL1.Proofs.Source

/-!
# Keeping left recursion

The elimination looks for keys that lead back to themselves along first symbols, the
analysis for keys that do so behind whatever vanishes. A first symbol stands behind
nothing, so what the elimination finds the analysis finds as well. A command that keeps
left recursion therefore either fails in the analysis or has nothing to keep, and then
it does what the command does that eliminates left recursion.
-/

namespace LL1

open Relation

variable {g : Grammar} {text : String}

namespace Grammar

theorem LeadsTo.exposes {s t : Symbol} (h : g.LeadsTo s t) : g.Exposes s t := by
  obtain ⟨hkey, rest, he⟩ := leadsTo_iff.mp h
  exact ⟨t :: rest, he, hkey, [], rest, rfl, vanishes_nil⟩

/-- The analysis fails where the elimination has something to do. -/
theorem exists_analysis_eq_error (hepsilon : ¬ g.isKey .epsilon) (hrec : g.isLeftRecursive) :
    ∃ key, g.analysis = .error (.cyclicFirst key) := by
  obtain ⟨s, hs⟩ := isLeftRecursive_iff.mp hrec
  have hcycle : TransGen g.Exposes s s := TransGen.mono (fun _ _ => LeadsTo.exposes) _ _ hs
  rcases analysis_outcome hepsilon with ⟨_, hacyclic⟩ | ⟨key, hfails, _⟩
  · exact absurd ⟨s, hcycle⟩ hacyclic
  · exact ⟨key, hfails⟩

end Grammar

namespace Source

/-- The analysis that keeps left recursion fails, or it is the one that does not. -/
theorem analysis_kept (text : String) :
    (∃ key, (Source.mk text true).analysis = .error (.cyclicFirst key)) ∨
      (Source.mk text true).analysis = (Source.mk text false).analysis := by
  cases hread : Bnf.read text with
  | error error =>
    refine Or.inr ?_
    unfold analysis grammar read
    rw [hread]
    rfl
  | ok g =>
    have hkept : (Source.mk text true).analysis = g.analysis := by
      unfold analysis grammar read
      rw [hread]
      rfl
    rw [hkept, analysis_of_read hread]
    by_cases hrec : g.isLeftRecursive
    · have hepsilon := (Bnf.isTextual_of_read hread).not_isKey_epsilon
      exact Or.inl (Grammar.exists_analysis_eq_error hepsilon hrec)
    · rw [Grammar.withoutLeftRecursion_eq_self hrec]
      exact Or.inr rfl

end Source

namespace Command

variable {files : Files} {call : Invocation}

/-- The command with its choice about left recursion replaced. -/
def Invocation.keeping (call : Invocation) (keep : Bool) : Invocation :=
  { call with keepLeftRecursion := keep }

/-- The choice only matters for the analysis of the grammar text. -/
theorem run_keeping_congr {keep keep' : Bool}
    (h : ∀ text tokens, readText files call.grammarPath = .ok text →
      readText files call.tokensPath = .ok tokens →
      (Source.mk text keep).analysis = (Source.mk text keep').analysis) :
    run files (call.keeping keep) = run files (call.keeping keep') := by
  unfold run
  show (readText files call.grammarPath >>= _) = (readText files call.grammarPath >>= _)
  cases hgrammar : readText files call.grammarPath with
  | error e => rfl
  | ok text =>
    show (readText files call.tokensPath >>= _) = (readText files call.tokensPath >>= _)
    cases htokens : readText files call.tokensPath with
    | error e => rfl
    | ok tokens =>
      show ((Source.mk text keep).analysis.mapError CommandError.grammar >>= _) =
        ((Source.mk text keep').analysis.mapError CommandError.grammar >>= _)
      rw [h text tokens hgrammar htokens]
      rfl

/-- If both files are read, the command fails as the analysis does. -/
theorem run_eq_error_of_analysis {text tokens : String} {failure : Failure}
    (hgrammar : readText files call.grammarPath = .ok text)
    (htokens : readText files call.tokensPath = .ok tokens)
    (h : (Source.mk text call.keepLeftRecursion).analysis = .error failure) :
    run files call = .error (.grammar failure) := by
  unfold run
  rw [hgrammar, htokens]
  show ((Source.mk text call.keepLeftRecursion).analysis.mapError CommandError.grammar >>= _) = _
  rw [h]
  rfl

/-- Unless the command that keeps left recursion fails with a key whose FIRST set depends
on itself, eliminating left recursion changes nothing about its outcome. The analysis of
a left-recursive grammar that is read from a text always fails so. -/
theorem outcome_keeping_eq :
    (∀ (files : Files) (call : Invocation),
      (∀ key, run files (call.keeping true) ≠ .error (.grammar (.cyclicFirst key))) →
      outcome files (call.keeping false) = outcome files (call.keeping true)) ∧
    ∀ (text : String) (g : Grammar), Bnf.read text = .ok g → g.isLeftRecursive →
      ∃ key, g.analysis = .error (.cyclicFirst key) := by
  constructor
  · intro files call hallowed
    have hrun : run files (call.keeping false) = run files (call.keeping true) := by
      refine run_keeping_congr fun text tokens hgrammar htokens => ?_
      rcases Source.analysis_kept text with ⟨key, hkey⟩ | hsame
      · have hfails : run files (call.keeping true) = .error (.grammar (.cyclicFirst key)) :=
          run_eq_error_of_analysis hgrammar htokens hkey
        exact absurd hfails (hallowed key)
      · exact hsame.symm
    unfold outcome
    rw [hrun]
  · intro text g hread hrec
    exact Grammar.exists_analysis_eq_error (Bnf.isTextual_of_read hread).not_isKey_epsilon hrec

/-- A grammar of balanced brackets and two tokens of it. -/
def bracketFiles : Files := fun path =>
  .ok (if path = "grammar" then "<S> ::= \"(\" <S> \")\" <S> | \"\"".toUTF8 else "(\n)\n".toUTF8)

def bracketCall : Invocation where
  grammarPath := "grammar"
  tokensPath := "tokens"
  shown := [.productions, .predictions]
  format := .plain
  keepLeftRecursion := false

theorem outcome_keeping_brackets :
    (∀ key, run bracketFiles (bracketCall.keeping true) ≠ .error (.grammar (.cyclicFirst key))) ∧
      outcome bracketFiles (bracketCall.keeping false) =
        outcome bracketFiles (bracketCall.keeping true) ∧
      Source.sums.isLeftRecursive ∧ ∃ key, Source.sums.analysis = .error (.cyclicFirst key) := by
  have hsucceeds : (run bracketFiles (bracketCall.keeping true)).isOk = true := by decide +kernel
  have hallowed : ∀ key,
      run bracketFiles (bracketCall.keeping true) ≠ .error (.grammar (.cyclicFirst key)) := by
    intro key hfails
    rw [hfails] at hsucceeds
    exact Bool.false_ne_true hsucceeds
  have hrec : Source.sums.isLeftRecursive := by decide +kernel
  have hread : Bnf.read Source.sumsText = .ok Source.sums := by decide +kernel
  exact ⟨hallowed, outcome_keeping_eq.1 bracketFiles bracketCall hallowed, hrec,
    outcome_keeping_eq.2 Source.sumsText Source.sums hread hrec⟩

end Command
end LL1
