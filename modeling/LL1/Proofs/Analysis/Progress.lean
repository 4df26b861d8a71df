import LL1.Proofs.Analysis.Session

/-!
# Keys in progress

The recursion for FIRST sets follows the cycles of a grammar and stops where it meets a key
in progress. It is described here as it goes on: with the keys in progress as part of what
it holds, without a measure, and in rules that apply only as long as the keys in progress
stay below a limit. There is a rule for whatever it meets, and just one. It always comes to
an end if the limit is the number of keys, because the keys in progress and those that are
idle make up all keys.
-/

namespace LL1

open Grammar

variable {g : Grammar}

namespace First

/-- What the recursion holds while it goes on. -/
structure Stage where
  cache : FirstCache
  progress : List Symbol

namespace Stage

def start : Stage := ⟨.empty, []⟩

def enter (stage : Stage) (key : Symbol) : Stage :=
  { stage with progress := key :: stage.progress }

def leave (stage : Stage) (key : Symbol) (first : SymbolSet) : Stage :=
  ⟨stage.cache.recordSymbol key first, stage.progress.erase key⟩

def record (stage : Stage) (e : Expression) (first : SymbolSet) : Stage :=
  { stage with cache := stage.cache.recordExpression e first }

end Stage

/-- What is called for. A sequence and a list of alternatives come with what has been found
before. -/
inductive Call where
  | symbol (s : Symbol)
  | expression (e : Expression)
  | sequence (found : SymbolSet) (e : List Symbol)
  | alternatives (found : SymbolSet) (es : List Expression)

/-- A call ends with a set, or with a key that needs itself. -/
abbrev Outcome := Except Symbol (SymbolSet × Stage)

namespace Outcome

def leaving (key : Symbol) (outcome : Outcome) : Outcome :=
  outcome.map fun end_ => (end_.1, end_.2.leave key end_.1)

def recording (e : Expression) (outcome : Outcome) : Outcome :=
  outcome.map fun end_ => (end_.1, end_.2.record e end_.1)

end Outcome

/-- How a call ends that has never more keys in progress than the limit. -/
inductive Ends (g : Grammar) (limit : Nat) : Call → Stage → Outcome → Prop
  | leaf {s : Symbol} {stage : Stage} (hkey : ¬ g.isKey s) :
    Ends g limit (.symbol s) stage (.ok (OrderedSet.singleton s, stage))
  | held {s : Symbol} {stage : Stage} {first : SymbolSet} (hkey : g.isKey s)
    (hheld : stage.cache.symbols.get? s = some first) :
    Ends g limit (.symbol s) stage (.ok (first, stage))
  | again {s : Symbol} {stage : Stage} (hkey : g.isKey s)
    (hnew : stage.cache.symbols.get? s = none) (hprogress : s ∈ stage.progress) :
    Ends g limit (.symbol s) stage (.error s)
  | key {s : Symbol} {stage : Stage} {outcome : Outcome} (hkey : g.isKey s)
    (hnew : stage.cache.symbols.get? s = none) (hidle : s ∉ stage.progress)
    (hlimit : stage.progress.length < limit)
    (hbelow : Ends g limit (.alternatives ∅ (g.alternatives s)) (stage.enter s) outcome) :
    Ends g limit (.symbol s) stage (outcome.leaving s)
  | recorded {e : Expression} {stage : Stage} {first : SymbolSet}
    (hheld : stage.cache.expressions.get? e = some first) :
    Ends g limit (.expression e) stage (.ok (first, stage))
  | expression {e : Expression} {stage : Stage} {outcome : Outcome}
    (hnew : stage.cache.expressions.get? e = none)
    (he : Ends g limit (.sequence ∅ e) stage outcome) :
    Ends g limit (.expression e) stage (outcome.recording e)
  | nil {found : SymbolSet} {stage : Stage} :
    Ends g limit (.sequence found []) stage (.ok (found.insert .epsilon, stage))
  | blocked {found : SymbolSet} {s key : Symbol} {e : List Symbol} {stage : Stage}
    (hs : Ends g limit (.symbol s) stage (.error key)) :
    Ends g limit (.sequence found (s :: e)) stage (.error key)
  | stop {found first : SymbolSet} {s : Symbol} {e : List Symbol} {stage stage' : Stage}
    (hs : Ends g limit (.symbol s) stage (.ok (first, stage'))) (hnull : ¬ first.nullable) :
    Ends g limit (.sequence found (s :: e)) stage
      (.ok (found.insertMany first.nonEpsilon, stage'))
  | next {found first : SymbolSet} {s : Symbol} {e : List Symbol} {stage stage' : Stage}
    {outcome : Outcome} (hs : Ends g limit (.symbol s) stage (.ok (first, stage')))
    (hnull : first.nullable)
    (he : Ends g limit (.sequence (found.insertMany first.nonEpsilon) e) stage' outcome) :
    Ends g limit (.sequence found (s :: e)) stage outcome
  | none {found : SymbolSet} {stage : Stage} :
    Ends g limit (.alternatives found []) stage (.ok (found, stage))
  | fails {found : SymbolSet} {key : Symbol} {e : Expression} {es : List Expression}
    {stage : Stage} (he : Ends g limit (.expression e) stage (.error key)) :
    Ends g limit (.alternatives found (e :: es)) stage (.error key)
  | some {found first : SymbolSet} {e : Expression} {es : List Expression}
    {stage stage' : Stage} {outcome : Outcome}
    (he : Ends g limit (.expression e) stage (.ok (first, stage')))
    (hes : Ends g limit (.alternatives (found.insertMany first.toList) es) stage' outcome) :
    Ends g limit (.alternatives found (e :: es)) stage outcome

/-! ## What the function answers -/

/-- The computation with the idle keys as its measure. -/
def Call.run (g : Grammar) (idle : List Symbol) : Call → FirstM SymbolSet
  | .symbol s => ofSymbol g idle s
  | .expression e => ofExpression (ofSymbol g idle) e
  | .sequence found e => ofSequence (ofSymbol g idle) found e
  | .alternatives found es => ofAlternatives (ofSymbol g idle) found es

/-- The outcome of the computation. What is in progress is the same before and after. -/
def Call.answer (g : Grammar) (idle : List Symbol) (call : Call) (stage : Stage) : Outcome :=
  ((call.run g idle).run stage.cache).map fun end_ => (end_.1, ⟨end_.2, stage.progress⟩)

variable {idle : List Symbol} {stage stage' : Stage} {s key : Symbol} {e : Expression}
  {es : List Expression} {found first : SymbolSet} {call : Call} {calls : List Call}
  {outcome : Outcome} {limit : Nat}

namespace Call

theorem progress_eq_of_answer (h : call.answer g idle stage = .ok (first, stage')) :
    stage'.progress = stage.progress := by
  obtain ⟨_, _, heq⟩ := map_eq_ok_iff.mp h
  rw [← (Prod.mk.inj heq).2]

theorem answer_leaf (hkey : ¬ g.isKey s) :
    (symbol s).answer g idle stage = .ok (OrderedSet.singleton s, stage) := by
  rw [answer, run, run_ofSymbol_of_not_isKey hkey]
  rfl

theorem answer_held (hkey : g.isKey s) (hheld : stage.cache.symbols.get? s = some first) :
    (symbol s).answer g idle stage = .ok (first, stage) := by
  rw [answer, run, run_ofSymbol_of_get? hkey hheld]
  rfl

theorem answer_again (hkey : g.isKey s) (hnew : stage.cache.symbols.get? s = none)
    (hidle : s ∉ idle) : (symbol s).answer g idle stage = .error s := by
  rw [answer, run, ofSymbol, if_pos hkey]
  simp only [StateT.run_bind, StateT.run_get, pure_bind, hnew, if_neg hidle]
  rfl

/-- Leaving a key undoes what entering it has put in progress. -/
theorem answer_key (hkey : g.isKey s) (hnew : stage.cache.symbols.get? s = none)
    (hidle : s ∈ idle) : (symbol s).answer g idle stage =
      ((alternatives ∅ (g.alternatives s)).answer g (idle.erase s) (stage.enter s)).leaving s := by
  rw [answer, run, ofSymbol, if_pos hkey]
  simp only [StateT.run_bind, StateT.run_get, pure_bind, hnew, if_pos hidle]
  rw [answer, run]
  show _ = Outcome.leaving s (((ofAlternatives (ofSymbol g (idle.erase s)) ∅
    (g.alternatives s)).run stage.cache).map _)
  cases (ofAlternatives (ofSymbol g (idle.erase s)) ∅ (g.alternatives s)).run stage.cache with
  | error key => rfl
  | ok result =>
    obtain ⟨first, cache⟩ := result
    show (Except.ok (first, ⟨cache.recordSymbol s first, stage.progress⟩) : Outcome) =
      .ok (first, ⟨cache.recordSymbol s first, (s :: stage.progress).erase s⟩)
    rw [List.erase_cons_head]

theorem answer_recorded (hheld : stage.cache.expressions.get? e = some first) :
    (expression e).answer g idle stage = .ok (first, stage) := by
  rw [answer, run, run_ofExpression_of_get? hheld]
  rfl

theorem answer_expression (hnew : stage.cache.expressions.get? e = none) :
    (expression e).answer g idle stage = ((sequence ∅ e).answer g idle stage).recording e := by
  rw [answer, run, ofExpression, answer, run]
  simp only [StateT.run_bind, StateT.run_get, pure_bind, hnew]
  cases (ofSequence (ofSymbol g idle) ∅ e).run stage.cache with
  | error key => rfl
  | ok result => rfl

theorem answer_nil :
    (sequence found []).answer g idle stage = .ok (found.insert .epsilon, stage) := rfl

/-! A sequence begins with its first symbol, and alternatives with the first of them. -/

variable {begun : Call} {next : SymbolSet → FirstM SymbolSet}

theorem answer_of_bind_error (hrun : call.run g idle = begun.run g idle >>= next)
    (h : begun.answer g idle stage = .error key) : call.answer g idle stage = .error key := by
  rw [answer, hrun, StateT.run_bind, map_eq_error_iff.mp h]
  rfl

theorem answer_of_bind_ok (hrun : call.run g idle = begun.run g idle >>= next)
    (h : begun.answer g idle stage = .ok (first, stage')) : call.answer g idle stage =
      ((next first).run stage'.cache).map fun end_ => (end_.1, ⟨end_.2, stage'.progress⟩) := by
  obtain ⟨_, hbegun, heq⟩ := map_eq_ok_iff.mp h
  obtain ⟨rfl, rfl⟩ := Prod.mk.inj heq
  rw [answer, hrun, StateT.run_bind, hbegun]
  rfl

theorem run_sequence_cons : (sequence found (s :: e)).run g idle =
    (symbol s).run g idle >>= fun first =>
      if first.nullable then (sequence (found.insertMany first.nonEpsilon) e).run g idle
      else pure (found.insertMany first.nonEpsilon) := rfl

theorem run_alternatives_cons : (alternatives found (e :: es)).run g idle =
    (expression e).run g idle >>= fun first =>
      (alternatives (found.insertMany first.toList) es).run g idle := rfl

theorem answer_blocked (hs : (symbol s).answer g idle stage = .error key) :
    (sequence found (s :: e)).answer g idle stage = .error key :=
  answer_of_bind_error run_sequence_cons hs

theorem answer_stop (hs : (symbol s).answer g idle stage = .ok (first, stage'))
    (hnull : ¬ first.nullable) : (sequence found (s :: e)).answer g idle stage =
      .ok (found.insertMany first.nonEpsilon, stage') := by
  rw [answer_of_bind_ok run_sequence_cons hs, if_neg hnull]
  rfl

theorem answer_next (hs : (symbol s).answer g idle stage = .ok (first, stage'))
    (hnull : first.nullable) : (sequence found (s :: e)).answer g idle stage =
      (sequence (found.insertMany first.nonEpsilon) e).answer g idle stage' := by
  rw [answer_of_bind_ok run_sequence_cons hs, if_pos hnull, answer]

theorem answer_none : (alternatives found []).answer g idle stage = .ok (found, stage) := rfl

theorem answer_fails (he : (expression e).answer g idle stage = .error key) :
    (alternatives found (e :: es)).answer g idle stage = .error key :=
  answer_of_bind_error run_alternatives_cons he

theorem answer_some (he : (expression e).answer g idle stage = .ok (first, stage')) :
    (alternatives found (e :: es)).answer g idle stage =
      (alternatives (found.insertMany first.toList) es).answer g idle stage' :=
  answer_of_bind_ok run_alternatives_cons he

end Call

/-! ## The only end -/

/-- The idle keys are the ones that are not in progress. -/
def Stage.Splits (g : Grammar) (stage : Stage) (idle : List Symbol) : Prop :=
  (stage.progress ++ idle).Perm g.keys

namespace Stage.Splits

theorem start (g : Grammar) : Stage.start.Splits g g.keys := .refl _

theorem of_progress_eq (h : stage.Splits g idle) (heq : stage'.progress = stage.progress) :
    stage'.Splits g idle := by
  rw [Splits, heq]
  exact h

theorem mem_cases (h : stage.Splits g idle) (hkey : g.isKey s) : s ∈ stage.progress ∨ s ∈ idle :=
  List.mem_append.mp (h.mem_iff.mpr (mem_keys.mpr hkey))

theorem mem_idle_iff (h : stage.Splits g idle) (hkey : g.isKey s) :
    s ∈ idle ↔ s ∉ stage.progress := by
  have hnodup : (stage.progress ++ idle).Nodup := h.nodup_iff.mpr g.nodup_keys
  exact ⟨fun hidle hprogress => (List.nodup_append.mp hnodup).2.2 s hprogress s hidle rfl,
    (h.mem_cases hkey).resolve_left⟩

/-- Fewer keys are in progress than there are as long as one is idle. -/
theorem length_lt (h : stage.Splits g idle) (hidle : s ∈ idle) :
    stage.progress.length < g.keys.length := by
  have hlength := h.length_eq
  have hpos := List.length_pos_of_mem hidle
  rw [List.length_append] at hlength
  omega

theorem enter (h : stage.Splits g idle) (hidle : s ∈ idle) :
    (stage.enter s).Splits g (idle.erase s) :=
  (List.perm_middle.symm.trans ((List.perm_cons_erase hidle).symm.append_left _)).trans h

end Stage.Splits

/-- Wherever the recursion ends, with any limit, that is the outcome of the computation. -/
theorem Ends.eq_answer (h : Ends g limit call stage outcome) (hsplits : stage.Splits g idle) :
    outcome = call.answer g idle stage := by
  induction h generalizing idle with
  | leaf hkey => exact (Call.answer_leaf hkey).symm
  | held hkey hheld => exact (Call.answer_held hkey hheld).symm
  | again hkey hnew hprogress =>
    have hidle := fun hidle => (hsplits.mem_idle_iff hkey).mp hidle hprogress
    exact (Call.answer_again hkey hnew hidle).symm
  | key hkey hnew hprogress _ _ ih =>
    have hidle := (hsplits.mem_idle_iff hkey).mpr hprogress
    rw [Call.answer_key hkey hnew hidle, ih (hsplits.enter hidle)]
  | recorded hheld => exact (Call.answer_recorded hheld).symm
  | expression hnew _ ih => rw [Call.answer_expression hnew, ih hsplits]
  | nil => exact Call.answer_nil.symm
  | blocked _ ih => exact (Call.answer_blocked (ih hsplits).symm).symm
  | stop _ hnull ih => exact (Call.answer_stop (ih hsplits).symm hnull).symm
  | next _ hnull _ ih ihe =>
    -- The same keys are in progress behind the first symbol, so the same ones are idle.
    have hs := (ih hsplits).symm
    rw [Call.answer_next hs hnull]
    exact ihe (hsplits.of_progress_eq (Call.progress_eq_of_answer hs))
  | none => exact Call.answer_none.symm
  | fails _ ih => exact (Call.answer_fails (ih hsplits).symm).symm
  | some _ _ ih ihes =>
    have he := (ih hsplits).symm
    rw [Call.answer_some he]
    exact ihes (hsplits.of_progress_eq (Call.progress_eq_of_answer he))

/-! ## There is an end -/

section

variable (hsymbol : ∀ s (stage : Stage), stage.Splits g idle →
  Ends g limit (.symbol s) stage ((Call.symbol s).answer g idle stage))
include hsymbol

theorem ends_sequence (e : List Symbol) (found : SymbolSet) (hsplits : stage.Splits g idle) :
    Ends g limit (.sequence found e) stage ((Call.sequence found e).answer g idle stage) := by
  induction e generalizing found stage with
  | nil => exact .nil
  | cons s e ih =>
    have hs := hsymbol s stage hsplits
    cases hanswer : (Call.symbol s).answer g idle stage with
    | error key =>
      rw [hanswer] at hs
      rw [Call.answer_blocked hanswer]
      exact .blocked hs
    | ok result =>
      obtain ⟨first, stage'⟩ := result
      rw [hanswer] at hs
      by_cases hnull : first.nullable
      · rw [Call.answer_next hanswer hnull]
        exact .next hs hnull (ih _ (hsplits.of_progress_eq (Call.progress_eq_of_answer hanswer)))
      · rw [Call.answer_stop hanswer hnull]
        exact .stop hs hnull

theorem ends_expression (e : Expression) (hsplits : stage.Splits g idle) :
    Ends g limit (.expression e) stage ((Call.expression e).answer g idle stage) := by
  cases hheld : stage.cache.expressions.get? e with
  | some first =>
    rw [Call.answer_recorded hheld]
    exact .recorded hheld
  | none =>
    rw [Call.answer_expression hheld]
    exact .expression hheld (ends_sequence hsymbol e ∅ hsplits)

theorem ends_alternatives (es : List Expression) (found : SymbolSet)
    (hsplits : stage.Splits g idle) :
    Ends g limit (.alternatives found es) stage
      ((Call.alternatives found es).answer g idle stage) := by
  induction es generalizing found stage with
  | nil => exact .none
  | cons e es ih =>
    have he := ends_expression hsymbol e hsplits
    cases hanswer : (Call.expression e).answer g idle stage with
    | error key =>
      rw [hanswer] at he
      rw [Call.answer_fails hanswer]
      exact .fails he
    | ok result =>
      obtain ⟨first, stage'⟩ := result
      rw [hanswer] at he
      rw [Call.answer_some hanswer]
      exact .some he (ih _ (hsplits.of_progress_eq (Call.progress_eq_of_answer hanswer)))

end

/-- Below a key that is entered there is one idle key less. -/
theorem ends_symbol (idle : List Symbol) (s : Symbol) (stage : Stage)
    (hsplits : stage.Splits g idle) :
    Ends g g.keys.length (.symbol s) stage ((Call.symbol s).answer g idle stage) := by
  by_cases hkey : g.isKey s
  · cases hheld : stage.cache.symbols.get? s with
    | some first =>
      rw [Call.answer_held hkey hheld]
      exact .held hkey hheld
    | none =>
      by_cases hidle : s ∈ idle
      · have hprogress := (hsplits.mem_idle_iff hkey).mp hidle
        rw [Call.answer_key hkey hheld hidle]
        refine .key hkey hheld hprogress (hsplits.length_lt hidle) ?_
        exact ends_alternatives (fun t => ends_symbol (idle.erase s) t) (g.alternatives s) ∅
          (hsplits.enter hidle)
      · rw [Call.answer_again hkey hheld hidle]
        exact .again hkey hheld ((hsplits.mem_cases hkey).resolve_right hidle)
  · rw [Call.answer_leaf hkey]
    exact .leaf hkey
termination_by idle.length
decreasing_by
  have := List.length_pos_of_mem ‹_ ∈ idle›
  rw [List.length_erase_of_mem ‹_ ∈ idle›]
  omega

theorem ends_answer (hsplits : stage.Splits g idle) (call : Call) :
    Ends g g.keys.length call stage (call.answer g idle stage) := by
  have hsymbol := ends_symbol (g := g) idle
  cases call with
  | symbol s => exact hsymbol s stage hsplits
  | expression e => exact ends_expression hsymbol e hsplits
  | sequence found e => exact ends_sequence hsymbol e found hsplits
  | alternatives found es => exact ends_alternatives hsymbol es found hsplits

/-! ## All questions -/

/-- How calls end that are made one after the other. -/
inductive EndsAll (g : Grammar) (limit : Nat) : List Call → Stage → Except Symbol Stage → Prop
  | done {stage : Stage} : EndsAll g limit [] stage (.ok stage)
  | fails {call : Call} {calls : List Call} {stage : Stage} {key : Symbol}
    (h : Ends g limit call stage (.error key)) : EndsAll g limit (call :: calls) stage (.error key)
  | goesOn {call : Call} {calls : List Call} {stage stage' : Stage} {first : SymbolSet}
    {outcome : Except Symbol Stage} (h : Ends g limit call stage (.ok (first, stage')))
    (hs : EndsAll g limit calls stage' outcome) : EndsAll g limit (call :: calls) stage outcome

/-- The calls for the sets of some keys and of their alternatives. -/
def questions (rules : List (Symbol × List Expression)) : List Call :=
  rules.flatMap fun rule => .symbol rule.1 :: rule.2.map .expression

/-- The computation of the sets that are called for. -/
def runAll (g : Grammar) : List Call → FirstM Unit
  | [] => pure ()
  | call :: calls => do
    let _ ← call.run g g.keys
    runAll g calls

theorem runAll_append (calls calls' : List Call) :
    runAll g (calls ++ calls') = (do runAll g calls; runAll g calls') := by
  induction calls with
  | nil => rfl
  | cons call calls ih =>
    rw [List.cons_append, runAll, runAll, ih, bind_assoc]

theorem finishExpressions_eq (es : List Expression) :
    finishExpressions g es = runAll g (es.map .expression) := by
  induction es with
  | nil => rfl
  | cons e es ih =>
    rw [finishExpressions, ih]
    rfl

theorem finishRules_eq (rules : List (Symbol × List Expression)) :
    finishRules g rules = runAll g (questions rules) := by
  induction rules with
  | nil => rfl
  | cons rule rules ih =>
    obtain ⟨left, es⟩ := rule
    rw [questions, List.flatMap_cons, List.cons_append, runAll, runAll_append, ← questions, ← ih,
      ← finishExpressions_eq]
    rfl

/-- The outcome of the computation, with what is in progress as it was. -/
def answerAll (g : Grammar) (calls : List Call) (stage : Stage) : Except Symbol Stage :=
  ((runAll g calls).run stage.cache).map fun end_ => ⟨end_.2, stage.progress⟩

theorem answerAll_fails (h : call.answer g g.keys stage = .error key) :
    answerAll g (call :: calls) stage = .error key := by
  rw [answerAll, runAll, StateT.run_bind, map_eq_error_iff.mp h]
  rfl

theorem answerAll_goesOn (h : call.answer g g.keys stage = .ok (first, stage')) :
    answerAll g (call :: calls) stage = answerAll g calls stage' := by
  obtain ⟨_, hrun, heq⟩ := map_eq_ok_iff.mp h
  obtain ⟨rfl, rfl⟩ := Prod.mk.inj heq
  rw [answerAll, runAll, StateT.run_bind, hrun]
  rfl

theorem EndsAll.eq_answerAll {outcome : Except Symbol Stage}
    (h : EndsAll g limit calls stage outcome) (hsplits : stage.Splits g g.keys) :
    outcome = answerAll g calls stage := by
  induction h with
  | done => rfl
  | fails h => exact (answerAll_fails (h.eq_answer hsplits).symm).symm
  | goesOn h _ ih =>
    have hanswer := (h.eq_answer hsplits).symm
    rw [answerAll_goesOn hanswer]
    exact ih (hsplits.of_progress_eq (Call.progress_eq_of_answer hanswer))

theorem endsAll_answerAll (calls : List Call) (hsplits : stage.Splits g g.keys) :
    EndsAll g g.keys.length calls stage (answerAll g calls stage) := by
  induction calls generalizing stage with
  | nil => exact .done
  | cons call calls ih =>
    have h := ends_answer hsplits call
    cases hanswer : call.answer g g.keys stage with
    | error key =>
      rw [hanswer] at h
      rw [answerAll_fails hanswer]
      exact .fails h
    | ok result =>
      obtain ⟨first, stage'⟩ := result
      rw [hanswer] at h
      rw [answerAll_goesOn hanswer]
      exact .goesOn h (ih (hsplits.of_progress_eq (Call.progress_eq_of_answer hanswer)))

theorem answerAll_questions (g : Grammar) :
    answerAll g (questions g.rules.entries) .start = g.firstCache.map fun cache => ⟨cache, []⟩ := by
  rw [answerAll, ← finishRules_eq, Grammar.firstCache]
  show ((finishRules g g.rules.entries).run .empty).map _ = _
  cases (finishRules g g.rules.entries).run .empty with
  | error key => rfl
  | ok result => rfl

end First
end LL1
