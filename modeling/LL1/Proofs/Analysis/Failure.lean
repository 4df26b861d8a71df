import LL1.Proofs.Analysis.First
import LL1.Proofs.Except
import LL1.Source

/-!
# When the analysis fails

An analysis fails exactly if a key is exposed by itself in one or more steps, which means
that it derives a form that starts with it. The key that the failure names is such a key.
-/

namespace LL1
namespace Grammar

open Relation

variable {g : Grammar}

theorem analysis_outcome (hepsilon : ¬ g.isKey .epsilon) :
    ((∃ a, g.analysis = .ok a) ∧ ¬ ∃ key, TransGen g.Exposes key key) ∨
      ∃ key, g.analysis = .error (.cyclicFirst key) ∧ TransGen g.Exposes key key := by
  unfold analysis
  rcases analyze_cases hepsilon with ⟨⟨a, ha⟩, hacyclic⟩ | ⟨key, hkey, hcycle⟩
  · exact Or.inl ⟨⟨a, mapError_eq_ok_iff.mpr ha⟩, hacyclic⟩
  · rw [hkey]
    exact Or.inr ⟨key, rfl, hcycle⟩

/-- The analysis finds exactly the keys that derive forms starting with themselves, and it
fails for no other reason. -/
theorem analysis_fails_iff_cycle (hepsilon : ¬ g.isKey .epsilon) :
    ((∃ failure, g.analysis = .error failure) ↔ ∃ key, g.isKey key ∧ TransGen g.Exposes key key) ∧
      (∀ failure, g.analysis = .error failure →
        ∃ key, failure = .cyclicFirst key ∧ g.isKey key ∧ TransGen g.Exposes key key) ∧
      ∀ key, g.isKey key →
        (TransGen g.Exposes key key ↔ ∃ w, TransGen g.Step [key] (key :: w)) := by
  have hself : ∀ key, g.isKey key →
      (TransGen g.Exposes key key ↔ ∃ w, TransGen g.Step [key] (key :: w)) :=
    fun key hkey => (transGen_exposes_iff hepsilon).trans (and_iff_right hkey)
  rcases analysis_outcome hepsilon with ⟨⟨a, ha⟩, hacyclic⟩ | ⟨key, hfails, hcycle⟩
  · refine ⟨iff_of_false ?_ ?_, fun failure hfailure => ?_, hself⟩
    · rintro ⟨failure, hfailure⟩
      rw [ha] at hfailure
      cases hfailure
    · exact fun ⟨key, _, hcycle⟩ => hacyclic ⟨key, hcycle⟩
    · rw [ha] at hfailure
      cases hfailure
  · have hkey : g.isKey key := ((transGen_exposes_iff hepsilon).mp hcycle).1
    refine ⟨iff_of_true ⟨_, hfails⟩ ⟨key, hkey, hcycle⟩, fun failure hfailure => ?_, hself⟩
    rw [hfails] at hfailure
    exact ⟨key, (Except.error.inj hfailure).symm, hkey, hcycle⟩

/-- The key `A` comes back behind `B`, which vanishes. No first symbol leads back. -/
def hiddenLoop : Grammar :=
  let a := Symbol.nonTerminal "A"
  let b := Symbol.nonTerminal "B"
  let c := Symbol.nonTerminal "C"
  (((Grammar.ofStart a).add a [[b, c, .terminal "x"]]).add b [[.epsilon], [.terminal "b"]]).add c
    [[a], [.terminal "c"]]

theorem analysis_fails_hiddenLoop :
    ¬ hiddenLoop.isKey .epsilon ∧ ¬ hiddenLoop.isLeftRecursive ∧
      hiddenLoop.analysis = .error (.cyclicFirst (.nonTerminal "A")) ∧
      ∃ w, TransGen hiddenLoop.Step [.nonTerminal "A"] (.nonTerminal "A" :: w) := by
  have hepsilon : ¬ hiddenLoop.isKey .epsilon := by decide +kernel
  have heval : (hiddenLoop.analysis.map fun _ => ()) =
      .error (.cyclicFirst (.nonTerminal "A")) := by
    decide +kernel
  have hfails := map_eq_error_iff.mp heval
  obtain ⟨_, hnames, hself⟩ := analysis_fails_iff_cycle hepsilon
  obtain ⟨key, heq, hkey, hcycle⟩ := hnames _ hfails
  obtain rfl := Failure.cyclicFirst.inj heq
  exact ⟨hepsilon, by decide +kernel, hfails, (hself _ hkey).mp hcycle⟩

end Grammar
end LL1
