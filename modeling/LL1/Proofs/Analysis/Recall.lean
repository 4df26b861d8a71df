import LL1.Proofs.Analysis.Session
import Mathlib.Data.List.Forall2

/-!
# What a session remembers does not show

The recursion for FIRST sets can be run without memory. It computes every set anew, and it
fails with a key that it meets again while that key is in progress. If there is an answer,
it is the only one, and it is found by finitely many questions. A chain of questions that
comes back to a key would be found below itself, so no key in progress is met, and the
recursion without memory finds the answer too.

An analysis that succeeds has answers for all keys and alternatives. So each question of a
session, whatever has been asked before, is answered as it is on a fresh analysis and as it
is without memory, and what the analysis holds stays the same.
-/

namespace LL1

open Grammar Relation

variable {g : Grammar} {a b : Analysis} {s t : Symbol} {e : Expression}

namespace First

/-! ## The recursion without memory as a function -/

namespace Anew

/-- Adds FIRST of a sequence to a set. -/
def ofSequence (ofSymbol : Symbol → Except Symbol SymbolSet) (found : SymbolSet) :
    List Symbol → Except Symbol SymbolSet
  | [] => pure (found.insert .epsilon)
  | s :: rest => do
    let first ← ofSymbol s
    let found := found.insertMany first.nonEpsilon
    if first.nullable then ofSequence ofSymbol found rest else pure found

def ofExpression (ofSymbol : Symbol → Except Symbol SymbolSet) (e : Expression) :
    Except Symbol SymbolSet := ofSequence ofSymbol ∅ e

/-- Adds FIRST of some alternatives to a set. -/
def ofAlternatives (ofSymbol : Symbol → Except Symbol SymbolSet) (found : SymbolSet) :
    List Expression → Except Symbol SymbolSet
  | [] => pure found
  | e :: alternatives => do
    let first ← ofExpression ofSymbol e
    ofAlternatives ofSymbol (found.insertMany first.toList) alternatives

/-- The keys in `idle` are the ones that are not in progress. -/
def ofSymbol (g : Grammar) (idle : List Symbol) (s : Symbol) : Except Symbol SymbolSet :=
  if g.isKey s then
    if s ∈ idle then
      ofAlternatives (fun t => ofSymbol g (idle.erase s) t) ∅ (g.alternatives s)
    else throw s
  else pure (OrderedSet.singleton s)
termination_by idle.length
decreasing_by
  rename_i hidle
  have hpos := List.length_pos_of_mem hidle
  rw [List.length_erase_of_mem hidle]
  omega

end Anew

/-! ## There is at most one answer -/

variable {task : Task} {first last : SymbolSet}

theorem Answers.unique (h : Answers g task first) (h' : Answers g task last) : first = last := by
  induction h generalizing last with
  | leaf hkey =>
    cases h' with
    | leaf _ => rfl
    | key hkey' _ => exact absurd hkey' hkey
  | key hkey _ ih =>
    cases h' with
    | leaf hkey' => exact absurd hkey hkey'
    | key _ hfirst => exact ih hfirst
  | nil =>
    cases h' with
    | nil => rfl
  | stop _ hnull ih =>
    cases h' with
    | stop hs _ => rw [ih hs]
    | next hs hnull' _ => exact absurd (ih hs ▸ hnull') hnull
  | next _ hnull _ ih ihe =>
    cases h' with
    | stop hs hnull' => exact absurd (ih hs ▸ hnull) hnull'
    | next hs _ he => exact ihe (ih hs ▸ he)
  | none =>
    cases h' with
    | none => rfl
  | some _ _ ih ihs =>
    cases h' with
    | some he hes => exact ihs (ih he ▸ hes)

/-! ## An answer is found by finitely many questions -/

/-- The symbols that FIRST of a sequence asks for: the first one, and further ones as long
as those before them have nullable answers. -/
inductive Asks (g : Grammar) : List Symbol → Symbol → Prop
  | head {s : Symbol} {e : List Symbol} : Asks g (s :: e) s
  | tail {s t : Symbol} {e : List Symbol} {first : SymbolSet} (hs : Answers g (.symbol s) first)
    (hnull : first.nullable) (h : Asks g e t) : Asks g (s :: e) t

def Needs (g : Grammar) (s t : Symbol) : Prop := ∃ e ∈ g.alternatives s, Asks g e t

/-- Every chain of questions ends. -/
def Task.Ends (g : Grammar) : Task → Prop
  | .symbol s => Acc (fun t s => Needs g s t) s
  | .sequence _ e => ∀ t, Asks g e t → Acc (fun t s => Needs g s t) t
  | .alternatives _ es => ∀ e ∈ es, ∀ t, Asks g e t → Acc (fun t s => Needs g s t) t

theorem Answers.ends (h : Answers g task first) : task.Ends g := by
  induction h with
  | @leaf s hkey =>
    refine Acc.intro s fun t ht => ?_
    obtain ⟨e, he, _⟩ := ht
    exact absurd (isKey_of_mem_alternatives he) hkey
  | @key s _ _ _ ih =>
    refine Acc.intro s fun t ht => ?_
    obtain ⟨e, he, hasks⟩ := ht
    exact ih e he t hasks
  | nil =>
    intro t ht
    cases ht
  | @stop _ _ _ _ hs hnull ih =>
    intro t ht
    cases ht with
    | head => exact ih
    | tail hs' hnull' _ => exact absurd (hs.unique hs' ▸ hnull') hnull
  | next _ _ _ ih ihe =>
    intro t ht
    cases ht with
    | head => exact ih
    | tail _ _ h => exact ihe t h
  | none =>
    intro e he
    cases he
  | some _ _ ih ihs =>
    intro f hf
    cases hf with
    | head => exact ih
    | tail _ hf => exact ihs f hf

/-! ## The recursion without memory finds the answers -/

namespace Anew

variable {sub : Symbol → Except Symbol SymbolSet} {found : SymbolSet} {es : List Expression}

theorem ofSequence_eq_ok (hsub : ∀ t, Asks g e t → ∀ x, Answers g (.symbol t) x → sub t = .ok x)
    (h : Answers g (.sequence found e) first) : ofSequence sub found e = .ok first := by
  induction e generalizing found with
  | nil =>
    cases h with
    | nil => rfl
  | cons s e ih =>
    cases h with
    | @stop _ set _ _ hs hnull =>
      rw [ofSequence, hsub s .head set hs]
      show (if set.nullable then _ else pure (found.insertMany set.nonEpsilon)) = _
      rw [if_neg hnull]
      rfl
    | @next _ set _ _ _ hs hnull he =>
      have hrest := ih (fun t ht => hsub t (.tail hs hnull ht)) he
      rw [ofSequence, hsub s .head set hs]
      show (if set.nullable then ofSequence sub (found.insertMany set.nonEpsilon) e else _) = _
      rw [if_pos hnull, hrest]

theorem ofAlternatives_eq_ok
    (hsub : ∀ e ∈ es, ∀ t, Asks g e t → ∀ x, Answers g (.symbol t) x → sub t = .ok x)
    (h : Answers g (.alternatives found es) first) : ofAlternatives sub found es = .ok first := by
  induction es generalizing found with
  | nil =>
    cases h with
    | none => rfl
  | cons e es ih =>
    cases h with
    | @some _ set _ _ _ he hes =>
      have hhead : ofExpression sub e = .ok set := ofSequence_eq_ok (hsub e List.mem_cons_self) he
      have hrest := ih (fun f hf => hsub f (List.mem_cons_of_mem e hf)) hes
      rw [ofAlternatives, hhead]
      exact hrest

/-- A key that is needed below another one is not that key, so taking a key from the idle
ones takes none that is still needed. -/
theorem ofSymbol_eq_ok_of_acc (hacc : Acc (fun t s => Needs g s t) s) {idle : List Symbol}
    (hidle : ∀ t, ReflTransGen (Needs g) s t → g.isKey t → t ∈ idle)
    (h : Answers g (.symbol s) first) : ofSymbol g idle s = .ok first := by
  induction hacc generalizing idle first with
  | intro s hbelow ih =>
    rw [ofSymbol]
    cases h with
    | leaf hkey =>
      rw [if_neg hkey]
      rfl
    | key hkey hfirst =>
      rw [if_pos hkey, if_pos (hidle s .refl hkey)]
      refine ofAlternatives_eq_ok (fun e he t ht x hx => ?_) hfirst
      have hneeds : Needs g s t := ⟨e, he, ht⟩
      refine ih t hneeds (fun u hu hukey => ?_) hx
      have hne : u ≠ s := by
        intro heq
        have hcycle : TransGen (Needs g) s s := TransGen.head' hneeds (heq ▸ hu)
        exact not_transGen_self_of_acc (Acc.intro s hbelow) hcycle
      exact (List.mem_erase_of_ne hne).mpr (hidle u (hu.head hneeds) hukey)

theorem ofSymbol_eq_ok (h : Answers g (.symbol s) first) : ofSymbol g g.keys s = .ok first :=
  ofSymbol_eq_ok_of_acc h.ends (fun _ _ hkey => mem_keys.mpr hkey) h

theorem ofExpression_eq_ok (h : Answers g (.sequence ∅ e) first) :
    ofExpression (ofSymbol g g.keys) e = .ok first :=
  ofSequence_eq_ok (fun _ _ _ hx => ofSymbol_eq_ok hx) h

end Anew
end First

/-! ## Questions -/

/-- What a session can be asked for. -/
inductive Question where
  | symbol (s : Symbol)
  | expression (e : Expression)

/-- The answer of the recursion without memory. -/
def Question.anew (g : Grammar) : Question → Except Symbol SymbolSet
  | .symbol s => First.Anew.ofSymbol g g.keys s
  | .expression e => First.Anew.ofExpression (First.Anew.ofSymbol g g.keys) e

namespace Analysis

def answer (a : Analysis) : Question → Except Symbol (SymbolSet × Analysis)
  | .symbol s => a.askSymbol s
  | .expression e => a.askExpression e

/-- Asks one question after the other. -/
def answers (a : Analysis) : List Question → Except Symbol (List SymbolSet × Analysis)
  | [] => pure ([], a)
  | question :: questions => do
    let (first, b) ← a.answer question
    let (firsts, c) ← b.answers questions
    pure (first :: firsts, c)

/-- The other analysis holds the same sets for all symbols and all alternatives. -/
structure HoldsSame (a b : Analysis) : Prop where
  first?_eq (s : Symbol) : b.first? s = a.first? s
  follow?_eq (s : Symbol) : b.follow? s = a.follow? s
  nullable_eq (s : Symbol) : b.nullable s = a.nullable s
  alternativeFirst?_eq {key : Symbol} {e : Expression} :
    e ∈ a.grammar.alternatives key → b.alternativeFirst? e = a.alternativeFirst? e

end Analysis

namespace Grammar

/-- What is held for a symbol is its only answer. -/
theorem Analyzed.first?_eq (ha : g.Analyzed a) (hb : g.Analyzed b) (s : Symbol) :
    b.first? s = a.first? s := by
  by_cases hkey : g.isKey s
  · obtain ⟨first, hfirst⟩ := ha.recorded.exists_symbol hkey
    obtain ⟨last, hlast⟩ := hb.recorded.exists_symbol hkey
    have heq := (ha.faithful.symbols hfirst).2.unique (hb.faithful.symbols hlast).2
    rw [Analysis.first?, Analysis.first?, hfirst, hlast, heq]
  · have hnone : ∀ {c : Analysis}, g.Analyzed c → c.first? s = none := by
      intro c hc
      cases hfirst : c.first? s with
      | none => rfl
      | some first => exact absurd (hc.faithful.symbols hfirst).1 hkey
    rw [hnone ha, hnone hb]

theorem Analyzed.alternativeFirst?_eq (ha : g.Analyzed a) (hb : g.Analyzed b) {key : Symbol}
    (he : e ∈ g.alternatives key) : b.alternativeFirst? e = a.alternativeFirst? e := by
  obtain ⟨first, hfirst⟩ := ha.recorded.exists_expression he
  obtain ⟨last, hlast⟩ := hb.recorded.exists_expression he
  have heq := (ha.faithful.expressions hfirst).unique (hb.faithful.expressions hlast)
  rw [Analysis.alternativeFirst?, Analysis.alternativeFirst?, hfirst, hlast, heq]

theorem Analyzed.holdsSame (ha : g.Analyzed a) (hb : g.Analyzed b) (h : b.settled = a.settled) :
    a.HoldsSame b where
  first?_eq := ha.first?_eq hb
  follow?_eq s := by
    rw [Analysis.follow?, h]
    rfl
  nullable_eq s := by
    rw [Analysis.nullable, ha.first?_eq hb s]
    rfl
  alternativeFirst?_eq he := ha.alternativeFirst?_eq hb (ha.grammar_eq ▸ he)

/-- A question is answered as without memory and leaves the FOLLOW sets alone. -/
theorem Session.exists_answer (h : g.Session a) (question : Question) :
    ∃ first b, a.answer question = .ok (first, b) ∧ g.Session b ∧ b.settled = a.settled ∧
      question.anew g = .ok first := by
  have hsettled : ∀ {query : FirstM SymbolSet} {first : SymbolSet} {b : Analysis},
      a.ask query = .ok (first, b) → b.settled = a.settled := by
    intro query first b hask
    obtain ⟨cache, _, rfl⟩ := Analysis.ask_eq_ok_iff.mp hask
    rfl
  cases question with
  | symbol s =>
    obtain ⟨first, hask, hanswers, _⟩ := h.exists_askSymbol s
    exact ⟨first, a, hask, h, rfl, First.Anew.ofSymbol_eq_ok hanswers⟩
  | expression e =>
    obtain ⟨first, b, hask, hanswers⟩ := h.exists_askExpression e
    exact ⟨first, b, hask, h.expression hask, hsettled hask, First.Anew.ofExpression_eq_ok hanswers⟩

theorem Session.exists_answers (h : g.Session a) (questions : List Question) :
    ∃ firsts b, a.answers questions = .ok (firsts, b) ∧ g.Session b ∧ b.settled = a.settled ∧
      List.Forall₂ (fun question first => question.anew g = .ok first) questions firsts := by
  induction questions generalizing a with
  | nil => exact ⟨[], a, rfl, h, rfl, .nil⟩
  | cons question questions ih =>
    obtain ⟨first, b, hanswer, hb, hsettled, hanew⟩ := h.exists_answer question
    obtain ⟨firsts, c, hanswers, hc, hsettled', hanew'⟩ := ih hb
    refine ⟨first :: firsts, c, ?_, hc, hsettled'.trans hsettled, .cons hanew hanew'⟩
    rw [Analysis.answers, hanswer]
    show (b.answers questions >>= fun found => pure (first :: found.1, found.2)) = _
    rw [hanswers]
    rfl

/-- Questions in any number and order do not fail. Each is answered as it would be on the
fresh analysis and as without memory, and afterwards the analysis holds what it held. -/
theorem answers_recall (h : g.analyze = .ok a) (questions : List Question) :
    ∃ firsts b, a.answers questions = .ok (firsts, b) ∧ a.HoldsSame b ∧
      List.Forall₂ (fun question first =>
        (∃ c, a.answer question = .ok (first, c)) ∧ question.anew g = .ok first)
        questions firsts := by
  have hstart : g.Session a := .start h
  obtain ⟨firsts, b, hanswers, hb, hsettled, hanew⟩ := hstart.exists_answers questions
  refine ⟨firsts, b, hanswers, hstart.analyzed.holdsSame hb.analyzed hsettled, ?_⟩
  refine hanew.imp fun question first hfirst => ⟨?_, hfirst⟩
  obtain ⟨fresh, c, hanswer, _, _, hfresh⟩ := hstart.exists_answer question
  have heq : fresh = first := Except.ok.inj (hfresh.symm.trans hfirst)
  exact ⟨c, heq ▸ hanswer⟩

/-- A new expression, a key that is held and a symbol without a rule. -/
theorem answers_recall_optionals :
    ∃ a, optionals.analyze = .ok a ∧ ∃ firsts b,
      a.answers [.expression [.nonTerminal "B", .nonTerminal "A"], .symbol (.nonTerminal "S"),
        .symbol (.terminal "x")] = .ok (firsts, b) ∧ a.HoldsSame b ∧
      firsts.map (·.toList) = [[.terminal "b", .terminal "a", .epsilon],
        [.terminal "a", .terminal "b", .nonTerminal "C"], [.terminal "x"]] ∧
      ∀ first ∈ firsts.head?, (Question.expression [.nonTerminal "B", .nonTerminal "A"]).anew
        optionals = .ok first := by
  have heval : (optionals.analyze >>= fun a =>
      (a.answers [.expression [.nonTerminal "B", .nonTerminal "A"], .symbol (.nonTerminal "S"),
        .symbol (.terminal "x")]).map fun found => found.1.map (·.toList)) =
      .ok [[.terminal "b", .terminal "a", .epsilon],
        [.terminal "a", .terminal "b", .nonTerminal "C"], [.terminal "x"]] := by
    decide +kernel
  obtain ⟨a, ha, hmap⟩ := bind_eq_ok_iff.mp heval
  obtain ⟨found, hfound, hlists⟩ := map_eq_ok_iff.mp hmap
  obtain ⟨firsts, b, hanswers, hsame, hall⟩ := answers_recall ha
    [.expression [.nonTerminal "B", .nonTerminal "A"], .symbol (.nonTerminal "S"),
      .symbol (.terminal "x")]
  have heq : found = (firsts, b) := Except.ok.inj (hfound.symm.trans hanswers)
  rw [heq] at hlists
  refine ⟨a, ha, firsts, b, hanswers, hsame, hlists, fun first hfirst => ?_⟩
  cases hall with
  | cons hhead _ =>
    rw [← Option.some.inj hfirst]
    exact hhead.2

end Grammar
end LL1
