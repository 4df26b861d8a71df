import LL1.Proofs.Analysis.First
import LL1.Proofs.Except

/-!
# Sessions

An analysis can be asked for FIRST of symbols and expressions again and again. Since all
keys and all alternatives are recorded, no question fails, and questions about them
leave the analysis as it is. Every answer is what the recursion answers without memory.
Where the empty string is no key, it is exactly FIRST of what was asked for.
-/

namespace LL1

open Grammar

variable {g : Grammar} {a b : Analysis} {c : FirstCache} {s key : Symbol} {e : Expression}
  {first : SymbolSet}

/-- The analyses that questions lead to, in any number and order. -/
inductive Grammar.Session (g : Grammar) : Analysis → Prop
  | start {a : Analysis} (h : g.analyze = .ok a) : Session g a
  | symbol {a b : Analysis} {s : Symbol} {first : SymbolSet} (h : Session g a)
      (hask : a.askSymbol s = .ok (first, b)) : Session g b
  | expression {a b : Analysis} {e : Expression} {first : SymbolSet} (h : Session g a)
      (hask : a.askExpression e = .ok (first, b)) : Session g b

/-! ## What stays -/

/-- What a session keeps, whatever it is asked for. -/
structure Grammar.Analyzed (g : Grammar) (a : Analysis) : Prop where
  grammar_eq : a.grammar = g
  faithful : a.cache.Faithful g
  recorded : a.cache.Recorded g
  exists_settled : ∃ cache, cache.Faithful g ∧ cache.Recorded g ∧ a.settled = g.followSets cache

theorem Analysis.ask_eq_ok_iff {α : Type} {query : FirstM α} {x : α} :
    a.ask query = .ok (x, b) ↔
      ∃ cache, query.run a.cache = .ok (x, cache) ∧ b = { a with cache := cache } := by
  unfold Analysis.ask
  rw [bind_eq_ok_iff]
  constructor
  · rintro ⟨⟨answer, cache⟩, hrun, hb⟩
    obtain ⟨rfl, rfl⟩ := Prod.mk.inj (Except.ok.inj hb)
    exact ⟨cache, hrun, rfl⟩
  · rintro ⟨cache, hrun, rfl⟩
    exact ⟨(x, cache), hrun, rfl⟩

theorem Grammar.Analyzed.start (h : g.analyze = .ok a) : g.Analyzed a := by
  unfold analyze at h
  rcases g.firstCache_outcome with ⟨cache, hcache, hfaithful, hrecorded⟩ | ⟨key, hkey, _⟩
  · rw [hcache] at h
    obtain rfl := Except.ok.inj h
    exact ⟨rfl, hfaithful, hrecorded, cache, hfaithful, hrecorded, rfl⟩
  · rw [hkey] at h
    cases h

theorem Grammar.Analyzed.ask {α : Type} {query : FirstM α} {x : α}
    {good : α → FirstCache → Prop} {bad : Symbol → Prop} (h : g.Analyzed a)
    (hquery : FirstM.Meets g query a.cache good bad) (hask : a.ask query = .ok (x, b)) :
    g.Analyzed b ∧ good x b.cache := by
  obtain ⟨cache, hrun, rfl⟩ := Analysis.ask_eq_ok_iff.mp hask
  obtain ⟨hfaithful, hgrows, hgood⟩ := hquery.of_ok hrun
  exact ⟨⟨h.grammar_eq, hfaithful, h.recorded.of_grows hgrows, h.exists_settled⟩, hgood⟩

theorem Grammar.Analyzed.askSymbol (h : g.Analyzed a) (hask : a.askSymbol s = .ok (first, b)) :
    g.Analyzed b ∧ First.Answers g (.symbol s) first := by
  unfold Analysis.askSymbol at hask
  rw [h.grammar_eq] at hask
  obtain ⟨hb, hfirst, _⟩ := h.ask (First.correct_ofSymbol g.keys s a.cache h.faithful) hask
  exact ⟨hb, hfirst⟩

theorem Grammar.Analyzed.askExpression (h : g.Analyzed a)
    (hask : a.askExpression e = .ok (first, b)) :
    g.Analyzed b ∧ First.Answers g (.sequence ∅ e) first := by
  unfold Analysis.askExpression at hask
  rw [h.grammar_eq] at hask
  obtain ⟨hb, hfirst, _⟩ :=
    h.ask (First.meets_ofExpression (First.correct_ofSymbol g.keys) e h.faithful) hask
  exact ⟨hb, hfirst⟩

theorem Grammar.Session.analyzed (h : g.Session a) : g.Analyzed a := by
  induction h with
  | start h => exact .start h
  | symbol _ hask ih => exact (ih.askSymbol hask).1
  | expression _ hask ih => exact (ih.askExpression hask).1

/-! ## No question fails -/

namespace First

variable {idle : List Symbol}

theorem run_ofSymbol_of_get? (hkey : g.isKey s) (h : c.symbols.get? s = some first) :
    (ofSymbol g idle s).run c = .ok (first, c) := by
  rw [ofSymbol, if_pos hkey]
  simp only [StateT.run_bind, StateT.run_get, pure_bind, h]
  rfl

theorem run_ofSymbol_of_not_isKey (hkey : ¬ g.isKey s) :
    (ofSymbol g idle s).run c = .ok (OrderedSet.singleton s, c) := by
  rw [ofSymbol, if_neg hkey]
  rfl

theorem run_ofExpression_of_get? {sub : Symbol → FirstM SymbolSet}
    (h : c.expressions.get? e = some first) :
    (ofExpression sub e).run c = .ok (first, c) := by
  unfold ofExpression
  simp only [StateT.run_bind, StateT.run_get, pure_bind, h]
  rfl

theorem exists_run_ofSymbol (idle : List Symbol) (h : c.Recorded g) (s : Symbol) :
    ∃ first, (ofSymbol g idle s).run c = .ok (first, c) := by
  by_cases hkey : g.isKey s
  · obtain ⟨first, hfirst⟩ := h.exists_symbol hkey
    exact ⟨first, run_ofSymbol_of_get? hkey hfirst⟩
  · exact ⟨_, run_ofSymbol_of_not_isKey hkey⟩

theorem exists_run_ofSequence (idle : List Symbol) (h : c.Recorded g) (found : SymbolSet)
    (e : List Symbol) : ∃ first, (ofSequence (ofSymbol g idle) found e).run c = .ok (first, c) := by
  induction e generalizing found with
  | nil => exact ⟨_, rfl⟩
  | cons s e ih =>
    obtain ⟨first, hfirst⟩ := exists_run_ofSymbol idle h s
    rw [ofSequence, StateT.run_bind, hfirst]
    by_cases hnull : first.nullable
    · obtain ⟨last, hlast⟩ := ih (found.insertMany first.nonEpsilon)
      refine ⟨last, ?_⟩
      show (if first.nullable then _ else _ : FirstM SymbolSet).run c = _
      rw [if_pos hnull, hlast]
    · refine ⟨found.insertMany first.nonEpsilon, ?_⟩
      show (if first.nullable then _ else _ : FirstM SymbolSet).run c = _
      rw [if_neg hnull]
      rfl

theorem exists_run_ofExpression (idle : List Symbol) (h : c.Recorded g) (e : Expression) :
    ∃ first d, (ofExpression (ofSymbol g idle) e).run c = .ok (first, d) := by
  cases hget : c.expressions.get? e with
  | some first => exact ⟨first, c, run_ofExpression_of_get? hget⟩
  | none =>
    obtain ⟨first, hfirst⟩ := exists_run_ofSequence idle h ∅ e
    refine ⟨first, c.recordExpression e first, ?_⟩
    unfold ofExpression
    simp only [StateT.run_bind, StateT.run_get, pure_bind, hget, hfirst]
    rfl

end First

namespace Grammar.Session

/-- A question about a symbol leaves the analysis as it is. -/
theorem exists_askSymbol (h : g.Session a) (s : Symbol) :
    ∃ first, a.askSymbol s = .ok (first, a) ∧ First.Answers g (.symbol s) first ∧
      (g.isKey s → a.first? s = some first) := by
  have hasks : ∀ first, (First.ofSymbol g g.keys s).run a.cache = .ok (first, a.cache) →
      a.askSymbol s = .ok (first, a) ∧ First.Answers g (.symbol s) first := by
    intro first hrun
    rw [← h.analyzed.grammar_eq] at hrun
    have hask : a.askSymbol s = .ok (first, a) := Analysis.ask_eq_ok_iff.mpr ⟨_, hrun, rfl⟩
    exact ⟨hask, (h.analyzed.askSymbol hask).2⟩
  by_cases hkey : g.isKey s
  · obtain ⟨first, hfirst⟩ := h.analyzed.recorded.exists_symbol hkey
    obtain ⟨hask, hanswers⟩ := hasks first (First.run_ofSymbol_of_get? hkey hfirst)
    exact ⟨first, hask, hanswers, fun _ => hfirst⟩
  · obtain ⟨hask, hanswers⟩ := hasks _ (First.run_ofSymbol_of_not_isKey hkey)
    exact ⟨_, hask, hanswers, fun h => absurd h hkey⟩

theorem exists_alternativeFirst (h : g.Session a) (he : e ∈ g.alternatives key) :
    ∃ first, a.alternativeFirst? e = some first ∧ a.askExpression e = .ok (first, a) := by
  obtain ⟨first, hfirst⟩ := h.analyzed.recorded.exists_expression he
  refine ⟨first, hfirst, Analysis.ask_eq_ok_iff.mpr ⟨a.cache, ?_, rfl⟩⟩
  exact First.run_ofExpression_of_get? hfirst

theorem exists_askExpression (h : g.Session a) (e : Expression) :
    ∃ first b, a.askExpression e = .ok (first, b) ∧ First.Answers g (.sequence ∅ e) first := by
  obtain ⟨first, cache, hrun⟩ := First.exists_run_ofExpression g.keys h.analyzed.recorded e
  rw [← h.analyzed.grammar_eq] at hrun
  have hask : a.askExpression e = .ok (first, { a with cache := cache }) :=
    Analysis.ask_eq_ok_iff.mpr ⟨cache, hrun, rfl⟩
  exact ⟨first, _, hask, (h.analyzed.askExpression hask).2⟩

end Grammar.Session

/-! ## The answers -/

/-- A set holds FIRST of an expression: the symbols without a rule that lead the forms it
derives, and the empty string if it derives the empty form. -/
structure Grammar.HoldsFirst (g : Grammar) (e : Expression) (first : SymbolSet) : Prop where
  mem_iff {t : Symbol} : t ≠ .epsilon →
    (t ∈ first ↔ ¬ g.isKey t ∧ ∃ w, g.Derives e.withoutEpsilon (t :: w))
  epsilon_mem_iff : .epsilon ∈ first ↔ g.Derives e.withoutEpsilon []
  not_mem_of_isKey {key : Symbol} : g.isKey key → key ∉ first

theorem Grammar.IsFirst.holdsFirst (hepsilon : ¬ g.isKey .epsilon) (h : g.IsFirst e first) :
    g.HoldsFirst e first where
  mem_iff ht := (h.mem_iff _).trans (starts_iff_of_ne ht)
  epsilon_mem_iff := (h.mem_iff _).trans starts_epsilon_iff
  not_mem_of_isKey {key} hkey hmem := by
    have hne : key ≠ .epsilon := fun heq => hepsilon (heq ▸ hkey)
    exact ((starts_iff_of_ne hne).mp ((h.mem_iff key).mp hmem)).1 hkey

namespace Grammar

/-- At any point of a session, questions about symbols and expressions are answered with
FIRST. What is held for a key or an alternative is the same answer. -/
theorem Session.first_exact (hepsilon : ¬ g.isKey .epsilon) (h : g.Session a) :
    (∀ s, ∃ first b, a.askSymbol s = .ok (first, b) ∧ g.HoldsFirst [s] first ∧
        (g.isKey s → a.first? s = some first)) ∧
      ∀ e, ∃ first b, a.askExpression e = .ok (first, b) ∧ g.HoldsFirst e first ∧
        ∀ key, e ∈ g.alternatives key → a.alternativeFirst? e = some first := by
  refine ⟨fun s => ?_, fun e => ?_⟩
  · obtain ⟨first, hask, hanswers, hheld⟩ := h.exists_askSymbol s
    have hfirst : g.IsFirst [s] first := hanswers.means hepsilon
    exact ⟨first, a, hask, hfirst.holdsFirst hepsilon, hheld⟩
  · obtain ⟨first, b, hask, hanswers⟩ := h.exists_askExpression e
    refine ⟨first, b, hask, (hanswers.isFirst hepsilon).holdsFirst hepsilon, fun key he => ?_⟩
    obtain ⟨held, hheld, hasked⟩ := h.exists_alternativeFirst he
    rw [hask] at hasked
    obtain ⟨rfl, _⟩ := Prod.mk.inj (Except.ok.inj hasked)
    exact hheld

/-- Two optional parts with an empty string between them, before a symbol without a rule. -/
def optionals : Grammar :=
  let s := Symbol.nonTerminal "S"
  let a := Symbol.nonTerminal "A"
  let b := Symbol.nonTerminal "B"
  (((Grammar.ofStart s).add s [[a, .epsilon, b, .nonTerminal "C"]]).add a
    [[.terminal "a"], [.epsilon]]).add b [[.terminal "b"], []]

theorem first_exact_optionals :
    ¬ optionals.isKey .epsilon ∧ ∃ a, optionals.Session a ∧ ∃ first,
      a.first? (.nonTerminal "S") = some first ∧
        first.toList = [.terminal "a", .terminal "b", .nonTerminal "C"] ∧
        optionals.HoldsFirst [.nonTerminal "S"] first := by
  have hepsilon : ¬ optionals.isKey .epsilon := by decide +kernel
  have hkey : optionals.isKey (.nonTerminal "S") := by decide +kernel
  have heval : (optionals.analyze.map fun a => (a.first? (.nonTerminal "S")).map (·.toList)) =
      .ok (some [.terminal "a", .terminal "b", .nonTerminal "C"]) := by
    decide +kernel
  obtain ⟨a, ha, hlist⟩ := map_eq_ok_iff.mp heval
  obtain ⟨first, _, _, hfirst, hheld⟩ := (Session.first_exact hepsilon (.start ha)).1
    (.nonTerminal "S")
  rw [hheld hkey] at hlist
  exact ⟨hepsilon, a, .start ha, first, hheld hkey, Option.some.inj hlist, hfirst⟩

end Grammar
end LL1
