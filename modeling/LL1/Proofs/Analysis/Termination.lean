import LL1.Proofs.Analysis.Progress
import LL1.Proofs.Analysis.Saturation

/-!
# The analysis comes to an end

FIRST sets hold symbols of alternatives only, whatever the keys are, so the FOLLOW rounds
stay in a finite range and every round but the last makes a set longer. Therefore the
analysis ends as it is built: with the recursion as it goes on and with rounds until one
changes nothing, neither of them cut off. The keys in progress and the rounds stay below
limits that the grammar gives.
-/

namespace LL1

open Grammar

variable {g : Grammar} {cache : FirstCache}

/-! ## What FIRST sets can hold -/

namespace SymbolSet

variable {set : SymbolSet} {symbols : List Symbol} {s : Symbol}

theorem occurs_empty : Occurs g ∅ := fun _ ha => absurd ha OrderedSet.not_mem_empty

theorem occurs_singleton (hs : s ∈ g.occurring) : Occurs g (OrderedSet.singleton s) := by
  intro a ha
  rw [← OrderedSet.mem_toList, OrderedSet.toList_singleton, List.mem_singleton] at ha
  rw [ha]
  exact Or.inr hs

theorem Occurs.insertMany (h : Occurs g set)
    (hsymbols : ∀ a ∈ symbols, a = .epsilon ∨ a ∈ g.occurring) :
    Occurs g (set.insertMany symbols) := fun a ha =>
  (OrderedSet.mem_insertMany.mp ha).elim (h a) (hsymbols a)

end SymbolSet

namespace First

open SymbolSet

/-- What is asked for is a key or occurs in alternatives, and so does what has been found. -/
def Task.Occurs (g : Grammar) : Task → Prop
  | .symbol s => g.isKey s ∨ s ∈ g.occurring
  | .sequence found e => SymbolSet.Occurs g found ∧ ∀ s ∈ e, s ∈ g.occurring
  | .alternatives found es => SymbolSet.Occurs g found ∧ ∀ e ∈ es, ∀ s ∈ e, s ∈ g.occurring

theorem Answers.occurs {task : Task} {first : SymbolSet} (h : Answers g task first)
    (htask : task.Occurs g) : SymbolSet.Occurs g first := by
  induction h with
  | leaf hkey => exact occurs_singleton (htask.resolve_left hkey)
  | key hkey _ ih => exact ih ⟨occurs_empty, fun _ he _ hs => mem_occurring he hs⟩
  | nil =>
    intro a ha
    rcases OrderedSet.mem_insert.mp ha with ha | ha
    · exact htask.1 a ha
    · exact Or.inl ha
  | stop _ _ ih =>
    obtain ⟨hs, _⟩ := List.forall_mem_cons.mp htask.2
    exact htask.1.insertMany fun a ha => ih (Or.inr hs) a (mem_nonEpsilon.mp ha).2
  | next _ _ _ ih ihe =>
    obtain ⟨hs, he⟩ := List.forall_mem_cons.mp htask.2
    refine ihe ⟨htask.1.insertMany fun a ha => ?_, he⟩
    exact ih (Or.inr hs) a (mem_nonEpsilon.mp ha).2
  | none => exact htask.1
  | some _ _ ih ihes =>
    obtain ⟨he, hes⟩ := List.forall_mem_cons.mp htask.2
    refine ihes ⟨htask.1.insertMany fun a ha => ?_, hes⟩
    exact ih ⟨occurs_empty, he⟩ a (OrderedSet.mem_toList.mp ha)

end First

namespace FirstCache

theorem Faithful.within (h : cache.Faithful g) : cache.Within g := by
  intro s hs
  unfold ofSymbol
  by_cases hkey : g.isKey s
  · rw [if_pos hkey]
    cases hget : cache.symbols.get? s with
    | none => exact SymbolSet.occurs_empty
    | some first => exact (h.symbols hget).2.occurs (Or.inr hs)
  · rw [if_neg hkey]
    exact SymbolSet.occurs_singleton hs

/-- What the rounds ask for is held, and the recursion has nothing to do for it. -/
theorem Recorded.ends_symbol (h : cache.Recorded g) (limit : Nat) (s : Symbol) :
    First.Ends g limit (.symbol s) ⟨cache, []⟩ (.ok (cache.ofSymbol g s, ⟨cache, []⟩)) := by
  unfold ofSymbol
  by_cases hkey : g.isKey s
  · obtain ⟨first, hfirst⟩ := h.exists_symbol hkey
    rw [if_pos hkey, hfirst, Option.getD_some]
    exact .held hkey hfirst
  · rw [if_neg hkey]
    exact .leaf hkey

end FirstCache

/-! ## The analysis -/

namespace Grammar

open First Follow

/-- How an analysis is built that has never more keys in progress and makes no more rounds
than the limits allow. What a round asks for goes through the recursion again. -/
inductive Builds (g : Grammar) (progressLimit roundsLimit : Nat) : Except Symbol Analysis → Prop
  | fails {key : Symbol}
    (h : EndsAll g progressLimit (questions g.rules.entries) .start (.error key)) :
    Builds g progressLimit roundsLimit (.error key)
  | settles {stage : Stage} {settled : Settled}
    (h : EndsAll g progressLimit (questions g.rules.entries) .start (.ok stage))
    (hasked : ∀ s ∈ g.occurring,
      Ends g progressLimit (.symbol s) stage (.ok (stage.cache.ofSymbol g s, stage)))
    (hsettles : Settles g stage.cache (initial g) settled)
    (hrounds : settled.rounds ≤ roundsLimit) :
    Builds g progressLimit roundsLimit (.ok ⟨g, stage.cache, settled⟩)

variable {progressLimit roundsLimit : Nat} {result : Except Symbol Analysis}

theorem builds_analyze (g : Grammar) : g.Builds g.keys.length (roundLimit g) g.analyze := by
  have hends := endsAll_answerAll (questions g.rules.entries) (Stage.Splits.start g)
  rw [answerAll_questions] at hends
  unfold analyze
  rcases g.firstCache_outcome with ⟨cache, hcache, hfaithful, hrecorded⟩ | ⟨key, hkey, _⟩
  · rw [hcache] at hends ⊢
    obtain ⟨hsettles, hrounds⟩ := settles_followSets hfaithful.within
    exact .settles hends (fun s _ => hrecorded.ends_symbol _ s) hsettles hrounds
  · rw [hkey] at hends ⊢
    exact .fails hends

/-- Nothing else can be built, whatever the limits are. -/
theorem Builds.eq_analyze (h : g.Builds progressLimit roundsLimit result) :
    result = g.analyze := by
  unfold analyze
  cases h with
  | fails h =>
    have hanswer := h.eq_answerAll (Stage.Splits.start g)
    rw [answerAll_questions] at hanswer
    rw [map_eq_error_iff.mp hanswer.symm]
    rfl
  | settles h _ hsettles _ =>
    have hanswer := h.eq_answerAll (Stage.Splits.start g)
    rw [answerAll_questions] at hanswer
    obtain ⟨cache, hcache, rfl⟩ := map_eq_ok_iff.mp hanswer.symm
    have hfaithful : cache.Faithful g := by
      rcases g.firstCache_outcome with ⟨_, hcache', hfaithful, _⟩ | ⟨_, hkey, _⟩
      · rw [hcache] at hcache'
        exact Except.ok.inj hcache' ▸ hfaithful
      · rw [hcache] at hkey
        cases hkey
    rw [hcache, hsettles.unique (settles_followSets hfaithful.within).1]
    rfl

/-- The analysis of any grammar is built with no more keys in progress than there are and
within a number of rounds that the keys and the symbols of the alternatives give. There is
no other end, even without these limits. -/
theorem builds_iff (g : Grammar) (result : Except Symbol Analysis) :
    (g.Builds g.keys.length (1 + (g.keys.length + 1) * (g.occurring.size + 1)) result ↔
      result = g.analyze) ∧
    ((∃ progressLimit roundsLimit, g.Builds progressLimit roundsLimit result) ↔
      result = g.analyze) := by
  have hbuilds : ∀ result, result = g.analyze → g.Builds g.keys.length (roundLimit g) result := by
    intro result heq
    rw [heq]
    exact g.builds_analyze
  refine ⟨⟨Builds.eq_analyze, hbuilds result⟩, ?_, fun heq => ⟨_, _, hbuilds result heq⟩⟩
  intro hbuilt
  obtain ⟨_, _, h⟩ := hbuilt
  exact h.eq_analyze

end Grammar
end LL1
