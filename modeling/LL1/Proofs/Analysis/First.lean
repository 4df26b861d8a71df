import LL1.Proofs.Analysis.Starts
import LL1.Proofs.LeftRecursion.Chain

/-!
# What FIRST sets hold

The recursion for FIRST sets answers what it would answer if it remembered nothing, and
what it remembers are such answers. This is true of every grammar. Where the empty
string is no key, the answers are FIRST: the recursion follows the equations of that
meaning, so no fixed point has to be taken.

The recursion meets a key in progress only behind prefixes that vanish. It fails
exactly if the exposed keys form a cycle, and the key that it fails with lies on one.
-/

namespace LL1

open Grammar

variable {g : Grammar} {α β : Type} {c d : FirstCache}

namespace First

/-! ## The recursion without memory -/

/-- What the recursion is asked for. A sequence and a list of alternatives come with
what has been found before. -/
inductive Task where
  | symbol (s : Symbol)
  | sequence (found : SymbolSet) (e : List Symbol)
  | alternatives (found : SymbolSet) (es : List Expression)

/-- The answers of the recursion if it remembers nothing. -/
inductive Answers (g : Grammar) : Task → SymbolSet → Prop
  | leaf {s : Symbol} (h : ¬ g.isKey s) : Answers g (.symbol s) (OrderedSet.singleton s)
  | key {s : Symbol} {first : SymbolSet} (h : g.isKey s)
      (hfirst : Answers g (.alternatives ∅ (g.alternatives s)) first) :
      Answers g (.symbol s) first
  | nil {found : SymbolSet} : Answers g (.sequence found []) (found.insert .epsilon)
  | stop {found first : SymbolSet} {s : Symbol} {e : List Symbol}
      (hs : Answers g (.symbol s) first) (h : ¬ first.nullable) :
      Answers g (.sequence found (s :: e)) (found.insertMany first.nonEpsilon)
  | next {found first last : SymbolSet} {s : Symbol} {e : List Symbol}
      (hs : Answers g (.symbol s) first) (h : first.nullable)
      (he : Answers g (.sequence (found.insertMany first.nonEpsilon) e) last) :
      Answers g (.sequence found (s :: e)) last
  | none {found : SymbolSet} : Answers g (.alternatives found []) found
  | some {found first last : SymbolSet} {e : Expression} {es : List Expression}
      (he : Answers g (.sequence ∅ e) first)
      (hes : Answers g (.alternatives (found.insertMany first.toList) es) last) :
      Answers g (.alternatives found (e :: es)) last

/-- What an answer is meant to be. -/
def Task.Means (g : Grammar) : Task → SymbolSet → Prop
  | .symbol s, first => g.IsFirst [s] first
  | .sequence found e, first =>
    (∀ a, a ∈ first ↔ a ∈ found ∨ g.Starts e a) ∧ g.Grounded e
  | .alternatives found es, first =>
    (∀ a, a ∈ first ↔ a ∈ found ∨ ∃ e ∈ es, g.Starts e a) ∧ ∀ e ∈ es, g.Grounded e

theorem Answers.means (hepsilon : ¬ g.isKey .epsilon) {task : Task} {first : SymbolSet}
    (h : Answers g task first) : task.Means g first := by
  induction h with
  | leaf hkey =>
    refine ⟨fun a => ?_, fun t ht => absurd (exposed_singleton_iff.mp ht).2 hkey⟩
    rw [← OrderedSet.mem_toList, OrderedSet.toList_singleton, List.mem_singleton,
      starts_singleton_iff_of_not_isKey hkey]
  | @key s first hkey _ ih =>
    have hs : s ≠ .epsilon := fun heq => hepsilon (heq ▸ hkey)
    refine ⟨fun a => ?_, (grounded_singleton_iff hkey).mpr (Acc.intro s fun t ht => ?_)⟩
    · rw [ih.1 a, starts_singleton_iff_of_isKey hkey hs]
      exact or_iff_right OrderedSet.not_mem_empty
    · obtain ⟨e, he, hexposed⟩ := ht
      exact ih.2 e he t hexposed
  | nil =>
    refine ⟨fun a => ?_, grounded_nil⟩
    rw [OrderedSet.mem_insert, starts_nil_iff]
  | @stop found first s e _ hnull ih =>
    have hvanishes : ¬ g.Vanishes [s] := fun h => hnull (ih.nullable_iff.mpr h)
    refine ⟨fun a => ?_, fun t ht => ?_⟩
    · rw [OrderedSet.mem_insertMany, ih.mem_nonEpsilon,
        starts_cons_iff_of_not_vanishes (e := e) hvanishes]
    · rcases exposed_cons_iff.mp ht with ht | ht
      · exact ih.grounded t (exposed_singleton_iff.mpr ht)
      · exact absurd ht.1 hvanishes
  | @next found first last s e _ hnull _ ih ihe =>
    have hvanishes : g.Vanishes [s] := ih.nullable_iff.mp hnull
    refine ⟨fun a => ?_, fun t ht => ?_⟩
    · rw [ihe.1 a, OrderedSet.mem_insertMany, ih.mem_nonEpsilon, or_assoc,
        starts_cons_iff_of_vanishes (e := e) hvanishes]
    · rcases exposed_cons_iff.mp ht with ht | ht
      · exact ih.grounded t (exposed_singleton_iff.mpr ht)
      · exact ihe.2 t ht.2
  | none =>
    refine ⟨fun a => ?_, fun e he => ?_⟩
    · simp
    · simp at he
  | @some found first last e es _ _ ih ihs =>
    refine ⟨fun a => ?_, fun f hf => ?_⟩
    · rw [ihs.1 a, OrderedSet.mem_insertMany, OrderedSet.mem_toList, ih.1 a, or_assoc]
      simp only [List.mem_cons, exists_eq_or_imp, OrderedSet.not_mem_empty, false_or]
    · rcases List.mem_cons.mp hf with rfl | hf
      · exact ih.2
      · exact ihs.2 f hf

/-- The answer for an expression of which nothing has been found before. -/
theorem Answers.isFirst (hepsilon : ¬ g.isKey .epsilon) {e : Expression} {first : SymbolSet}
    (h : Answers g (.sequence ∅ e) first) : g.IsFirst e first := by
  obtain ⟨hmem, hgrounded⟩ := h.means hepsilon
  exact ⟨fun a => (hmem a).trans (or_iff_right OrderedSet.not_mem_empty), hgrounded⟩

theorem Answers.nullable_iff (hepsilon : ¬ g.isKey .epsilon) {s : Symbol} {first : SymbolSet}
    (h : Answers g (.symbol s) first) : first.nullable ↔ g.Vanishes [s] :=
  (h.means hepsilon).nullable_iff

end First

/-! ## What is remembered -/

namespace FirstCache

/-- Every set that is recorded is an answer. -/
structure Faithful (g : Grammar) (cache : FirstCache) : Prop where
  symbols {s : Symbol} {first : SymbolSet} :
    cache.symbols.get? s = some first → g.isKey s ∧ First.Answers g (.symbol s) first
  expressions {e : Expression} {first : SymbolSet} :
    cache.expressions.get? e = some first → First.Answers g (.sequence ∅ e) first

theorem faithful_empty : empty.Faithful g where
  symbols h := by simp [empty] at h
  expressions h := by simp [empty] at h

theorem Faithful.recordSymbol (h : c.Faithful g) {s : Symbol} {first : SymbolSet}
    (hkey : g.isKey s) (hfirst : First.Answers g (.symbol s) first) :
    (c.recordSymbol s first).Faithful g := by
  refine { h with symbols := fun {t} {set} ht => ?_ }
  rw [FirstCache.recordSymbol, OrderedMap.get?_insert] at ht
  by_cases hts : t = s
  · rw [if_pos hts, Option.some.injEq] at ht
    rw [hts, ← ht]
    exact ⟨hkey, hfirst⟩
  · rw [if_neg hts] at ht
    exact h.symbols ht

theorem Faithful.recordExpression (h : c.Faithful g) {e : Expression} {first : SymbolSet}
    (hfirst : First.Answers g (.sequence ∅ e) first) :
    (c.recordExpression e first).Faithful g := by
  refine { h with expressions := fun {f} {set} hf => ?_ }
  rw [FirstCache.recordExpression, OrderedMap.get?_insert] at hf
  by_cases hfe : f = e
  · rw [if_pos hfe, Option.some.injEq] at hf
    rw [hfe, ← hf]
    exact hfirst
  · rw [if_neg hfe] at hf
    exact h.expressions hf

/-- Every set that is recorded is right. -/
structure Sound (g : Grammar) (cache : FirstCache) : Prop where
  symbols {s : Symbol} {first : SymbolSet} :
    cache.symbols.get? s = some first → g.isKey s ∧ g.IsFirst [s] first
  expressions {e : Expression} {first : SymbolSet} :
    cache.expressions.get? e = some first → g.IsFirst e first

theorem Faithful.sound (hepsilon : ¬ g.isKey .epsilon) (h : c.Faithful g) : c.Sound g where
  symbols hs := ⟨(h.symbols hs).1, (h.symbols hs).2.means hepsilon⟩
  expressions he := (h.expressions he).isFirst hepsilon

/-- Nothing that is recorded is forgotten. -/
structure Grows (c d : FirstCache) : Prop where
  symbols : ∀ s ∈ c.symbols, s ∈ d.symbols
  expressions : ∀ e ∈ c.expressions, e ∈ d.expressions

theorem Grows.refl (c : FirstCache) : c.Grows c := ⟨fun _ h => h, fun _ h => h⟩

theorem Grows.trans {b : FirstCache} (hcd : c.Grows d) (hdb : d.Grows b) : c.Grows b :=
  ⟨fun s h => hdb.symbols s (hcd.symbols s h), fun e h => hdb.expressions e (hcd.expressions e h)⟩

theorem grows_recordSymbol (s : Symbol) (first : SymbolSet) :
    c.Grows (c.recordSymbol s first) :=
  ⟨fun _ h => OrderedMap.mem_insert.mpr (Or.inl h), fun _ h => h⟩

theorem grows_recordExpression (e : Expression) (first : SymbolSet) :
    c.Grows (c.recordExpression e first) :=
  ⟨fun _ h => h, fun _ h => OrderedMap.mem_insert.mpr (Or.inl h)⟩

/-- All keys and all alternatives are recorded. -/
structure Recorded (g : Grammar) (cache : FirstCache) : Prop where
  symbols {key : Symbol} : g.isKey key → key ∈ cache.symbols
  expressions {key : Symbol} {e : Expression} : e ∈ g.alternatives key → e ∈ cache.expressions

theorem Recorded.of_grows (h : c.Recorded g) (hgrows : c.Grows d) : d.Recorded g :=
  ⟨fun hkey => hgrows.symbols _ (h.symbols hkey), fun he => hgrows.expressions _ (h.expressions he)⟩

theorem Recorded.exists_symbol (h : c.Recorded g) {key : Symbol} (hkey : g.isKey key) :
    ∃ first, c.symbols.get? key = some first :=
  Option.isSome_iff_exists.mp (OrderedMap.mem_iff.mp (h.symbols hkey))

theorem Recorded.exists_expression (h : c.Recorded g) {key : Symbol} {e : Expression}
    (he : e ∈ g.alternatives key) : ∃ first, c.expressions.get? e = some first :=
  Option.isSome_iff_exists.mp (OrderedMap.mem_iff.mp (h.expressions he))

end FirstCache

/-- What a computation makes of a cache. If it finishes, the cache has grown faithfully
and `good` holds of the answer and the cache; if it fails, `bad` holds of the key. -/
def FirstM.Meets (g : Grammar) (m : FirstM α) (c : FirstCache) (good : α → FirstCache → Prop)
    (bad : Symbol → Prop) : Prop :=
  match m.run c with
  | .ok (x, d) => d.Faithful g ∧ c.Grows d ∧ good x d
  | .error key => bad key

namespace FirstM

variable {m : FirstM α} {f : α → FirstM β} {good : α → FirstCache → Prop}
  {good' : β → FirstCache → Prop} {bad : Symbol → Prop} {x : α}

theorem Meets.of_ok (h : Meets g m c good bad) (hrun : m.run c = .ok (x, d)) :
    d.Faithful g ∧ c.Grows d ∧ good x d := by
  unfold Meets at h
  rwa [hrun] at h

theorem Meets.of_error (h : Meets g m c good bad) {key : Symbol} (hrun : m.run c = .error key) :
    bad key := by
  unfold Meets at h
  rwa [hrun] at h

theorem meets_pure (h : c.Faithful g) (hgood : good x c) : Meets g (pure x) c good bad :=
  ⟨h, .refl c, hgood⟩

theorem meets_throw {key : Symbol} (h : bad key) :
    Meets g (throw key : FirstM α) c good bad := h

theorem Meets.bind (hm : Meets g m c good bad)
    (hf : ∀ x d, d.Faithful g → c.Grows d → good x d → Meets g (f x) d good' bad) :
    Meets g (m >>= f) c good' bad := by
  unfold Meets
  rw [StateT.run_bind]
  cases hrun : m.run c with
  | error key => exact hm.of_error hrun
  | ok result =>
    obtain ⟨x, d⟩ := result
    obtain ⟨hd, hgrows, hgood⟩ := hm.of_ok hrun
    have hnext := hf x d hd hgrows hgood
    show match (f x).run d with
      | .ok (y, b) => b.Faithful g ∧ c.Grows b ∧ good' y b
      | .error key => bad key
    cases hlast : (f x).run d with
    | error key => exact hnext.of_error hlast
    | ok result =>
      obtain ⟨hb, hgrows', hgood'⟩ := hnext.of_ok hlast
      exact ⟨hb, hgrows.trans hgrows', hgood'⟩

theorem Meets.mono {good' : α → FirstCache → Prop} {bad' : Symbol → Prop}
    (h : Meets g m c good bad) (hgood : ∀ x d, good x d → good' x d)
    (hbad : ∀ key, bad key → bad' key) : Meets g m c good' bad' := by
  unfold Meets
  cases hrun : m.run c with
  | error key => exact hbad key (h.of_error hrun)
  | ok result =>
    obtain ⟨hd, hgrows, hx⟩ := h.of_ok hrun
    exact ⟨hd, hgrows, hgood _ _ hx⟩

theorem Meets.and_grows (h : Meets g m c good bad) :
    Meets g m c (fun x d => c.Grows d ∧ good x d) bad := by
  unfold Meets
  cases hrun : m.run c with
  | error key => exact h.of_error hrun
  | ok result =>
    obtain ⟨hd, hgrows, hx⟩ := h.of_ok hrun
    exact ⟨hd, hgrows, hgrows, hx⟩

theorem meets_get (h : c.Faithful g) : Meets g get c (fun x d => x = c ∧ d = c) bad :=
  ⟨h, .refl c, rfl, rfl⟩

theorem meets_modify {change : FirstCache → FirstCache} {good : Unit → FirstCache → Prop}
    (hfaithful : (change c).Faithful g) (hgrows : c.Grows (change c)) (hgood : good () (change c)) :
    Meets g (modify change) c good bad := ⟨hfaithful, hgrows, hgood⟩

end FirstM

/-! ## The recursion -/

namespace First

open FirstM

variable {idle : List Symbol} {sub : Symbol → FirstM SymbolSet}

/-- FIRST sets of single symbols are answers, or a symbol is blocked. -/
def Correct (g : Grammar) (idle : List Symbol) (sub : Symbol → FirstM SymbolSet) : Prop :=
  ∀ (s : Symbol) (c : FirstCache), c.Faithful g →
    Meets g (sub s) c
      (fun first d => Answers g (.symbol s) first ∧ (g.isKey s → s ∈ d.symbols))
      (fun key => ¬ g.isKey .epsilon → g.Blocked idle [s] key)

theorem meets_ofSequence (hsub : Correct g idle sub) (e : List Symbol) (found : SymbolSet)
    (hc : c.Faithful g) :
    Meets g (ofSequence sub found e) c (fun first _ => Answers g (.sequence found e) first)
      (fun key => ¬ g.isKey .epsilon → g.Blocked idle e key) := by
  induction e generalizing found c with
  | nil => exact meets_pure hc .nil
  | cons s e ih =>
    have hhead : ∀ key, (¬ g.isKey .epsilon → g.Blocked idle [s] key) →
        ¬ g.isKey .epsilon → g.Blocked idle (s :: e) key := by
      intro key h hepsilon
      refine (h hepsilon).mono fun t ht => exposed_cons_iff.mpr (Or.inl ?_)
      exact exposed_singleton_iff.mp ht
    unfold ofSequence
    refine ((hsub s c hc).mono (fun _ _ h => h.1) hhead).bind fun first d hd _ hfirst => ?_
    by_cases hnull : first.nullable
    · rw [if_pos hnull]
      refine (ih (found.insertMany first.nonEpsilon) hd).mono (fun _ _ h => .next hfirst hnull h) ?_
      intro key h hepsilon
      have hvanishes : g.Vanishes [s] := (hfirst.nullable_iff hepsilon).mp hnull
      exact (h hepsilon).mono fun t ht => exposed_cons_iff.mpr (Or.inr ⟨hvanishes, ht⟩)
    · rw [if_neg hnull]
      exact meets_pure hd (.stop hfirst hnull)

theorem meets_ofExpression (hsub : Correct g idle sub) (e : Expression) (hc : c.Faithful g) :
    Meets g (ofExpression sub e) c
      (fun first d => Answers g (.sequence ∅ e) first ∧ e ∈ d.expressions)
      (fun key => ¬ g.isKey .epsilon → g.Blocked idle e key) := by
  unfold ofExpression
  refine (meets_get hc).bind fun c' d hd _ hget => ?_
  obtain ⟨rfl, rfl⟩ := hget
  split
  · rename_i first hfound
    have hmem : e ∈ d.expressions := OrderedMap.mem_iff.mpr (by rw [hfound]; rfl)
    exact meets_pure hd ⟨hd.expressions hfound, hmem⟩
  · refine (meets_ofSequence hsub e ∅ hd).bind fun first b hb _ hfirst => ?_
    have hrecord : Meets g (modify (·.recordExpression e first)) b
        (fun _ d => e ∈ d.expressions)
        (fun key => ¬ g.isKey .epsilon → g.Blocked idle e key) := by
      refine meets_modify (hb.recordExpression hfirst) (b.grows_recordExpression e first) ?_
      exact OrderedMap.mem_insert.mpr (Or.inr rfl)
    exact hrecord.bind fun _ d hd _ hmem => meets_pure hd ⟨hfirst, hmem⟩

theorem meets_ofAlternatives (hsub : Correct g idle sub) (es : List Expression)
    (found : SymbolSet) (hc : c.Faithful g) :
    Meets g (ofAlternatives sub found es) c
      (fun first _ => Answers g (.alternatives found es) first)
      (fun key => ¬ g.isKey .epsilon → ∃ e ∈ es, g.Blocked idle e key) := by
  induction es generalizing found c with
  | nil => exact meets_pure hc .none
  | cons e es ih =>
    unfold ofAlternatives
    refine ((meets_ofExpression hsub e hc).mono (fun _ _ h => h.1) ?_).bind
      fun first d hd _ hfirst => ?_
    · exact fun key h hepsilon => ⟨e, List.mem_cons_self, h hepsilon⟩
    · refine (ih (found.insertMany first.toList) hd).mono (fun _ _ h => .some hfirst h) ?_
      intro key h hepsilon
      obtain ⟨f, hf, hblocked⟩ := h hepsilon
      exact ⟨f, List.mem_cons_of_mem e hf, hblocked⟩

/-- A key in progress is one that is not idle. Taking a key from the idle ones is
undone by `Blocked.of_alternative`. -/
theorem correct_ofSymbol (idle : List Symbol) : Correct g idle (ofSymbol g idle) := by
  intro s c hc
  rw [ofSymbol]
  by_cases hkey : g.isKey s
  · rw [if_pos hkey]
    refine (meets_get hc).bind fun c' d hd _ hget => ?_
    obtain ⟨rfl, rfl⟩ := hget
    split
    · rename_i first hfound
      have hmem : s ∈ d.symbols := OrderedMap.mem_iff.mpr (by rw [hfound]; rfl)
      exact meets_pure hd ⟨(hd.symbols hfound).2, fun _ => hmem⟩
    · by_cases hidle : s ∈ idle
      · rw [if_pos hidle]
        have hbelow : Correct g (idle.erase s) (ofSymbol g (idle.erase s)) :=
          correct_ofSymbol (idle.erase s)
        have hblocked : ∀ key,
            (¬ g.isKey .epsilon → ∃ e ∈ g.alternatives s, g.Blocked (idle.erase s) e key) →
            ¬ g.isKey .epsilon → g.Blocked idle [s] key := by
          intro key h hepsilon
          obtain ⟨e, he, hblocked⟩ := h hepsilon
          exact hblocked.of_alternative he
        refine ((meets_ofAlternatives hbelow (g.alternatives s) ∅ hd).mono
          (fun _ _ h => h) hblocked).bind fun first b hb _ hfirst => ?_
        have hright : Answers g (.symbol s) first := .key hkey hfirst
        have hrecord : Meets g (modify (·.recordSymbol s first)) b
            (fun _ d => s ∈ d.symbols)
            (fun key => ¬ g.isKey .epsilon → g.Blocked idle [s] key) := by
          refine meets_modify (hb.recordSymbol hkey hright) (b.grows_recordSymbol s first) ?_
          exact OrderedMap.mem_insert.mpr (Or.inr rfl)
        exact hrecord.bind fun _ d hd _ hmem => meets_pure hd ⟨hright, fun _ => hmem⟩
      · rw [if_neg hidle]
        refine meets_throw fun _ => Or.inr ⟨s, exposed_singleton_iff.mpr ⟨rfl, hkey⟩, .refl, hidle⟩
  · rw [if_neg hkey]
    exact meets_pure hc ⟨.leaf hkey, fun h => absurd h hkey⟩
termination_by idle.length
decreasing_by
  have := List.length_pos_of_mem ‹_ ∈ idle›
  rw [List.length_erase_of_mem ‹_ ∈ idle›]
  omega

theorem meets_finishExpressions (es : List Expression) (hc : c.Faithful g) :
    Meets g (finishExpressions g es) c (fun _ d => ∀ e ∈ es, e ∈ d.expressions)
      (fun key => ¬ g.isKey .epsilon → Relation.TransGen g.Exposes key key) := by
  induction es generalizing c with
  | nil => exact meets_pure hc fun e he => by simp at he
  | cons e es ih =>
    unfold finishExpressions
    refine ((meets_ofExpression (correct_ofSymbol g.keys) e hc).mono (fun _ _ h => h.2)
      fun _ h hepsilon => (h hepsilon).transGen_self).bind fun _ d hd _ hmem => ?_
    refine (ih hd).and_grows.mono (fun _ b h f hf => ?_) fun _ h => h
    rcases List.mem_cons.mp hf with rfl | hf
    · exact h.1.expressions f hmem
    · exact h.2 f hf

theorem meets_finishRules (rules : List (Symbol × List Expression)) (hc : c.Faithful g) :
    Meets g (finishRules g rules) c
      (fun _ d => ∀ rule ∈ rules, (g.isKey rule.1 → rule.1 ∈ d.symbols) ∧
        ∀ e ∈ rule.2, e ∈ d.expressions)
      (fun key => ¬ g.isKey .epsilon → Relation.TransGen g.Exposes key key) := by
  induction rules generalizing c with
  | nil => exact meets_pure hc fun rule hrule => by simp at hrule
  | cons rule rules ih =>
    obtain ⟨left, alternatives⟩ := rule
    unfold finishRules
    refine ((correct_ofSymbol g.keys left c hc).mono (fun _ _ h => h.2)
      fun _ h hepsilon => (h hepsilon).transGen_self).bind fun _ d hd _ hleft => ?_
    refine (meets_finishExpressions alternatives hd).and_grows.bind fun _ b hb _ hall => ?_
    refine (ih hb).and_grows.mono (fun _ last h r hr => ?_) fun _ h => h
    rcases List.mem_cons.mp hr with rfl | hr
    · refine ⟨fun hkey => ?_, fun e he => ?_⟩
      · exact h.1.symbols _ (hall.1.symbols _ (hleft hkey))
      · exact h.1.expressions e (hall.2 e he)
    · exact h.2 r hr

end First

/-! ## The finished cache -/

/-- All FIRST sets of a grammar are recorded, and they are right. -/
structure FirstCache.Complete (g : Grammar) (cache : FirstCache) : Prop where
  sound : cache.Sound g
  symbols {key : Symbol} : g.isKey key → key ∈ cache.symbols
  expressions {key : Symbol} {e : Expression} : e ∈ g.alternatives key → e ∈ cache.expressions

namespace FirstCache

theorem Faithful.complete (hepsilon : ¬ g.isKey .epsilon) (h : c.Faithful g)
    (hrecorded : c.Recorded g) : c.Complete g :=
  ⟨h.sound hepsilon, hrecorded.symbols, hrecorded.expressions⟩

namespace Complete

variable {cache : FirstCache} {s : Symbol} {e : Expression}

theorem recorded (h : cache.Complete g) : cache.Recorded g := ⟨h.symbols, h.expressions⟩

theorem isFirst_ofSymbol (h : cache.Complete g) : g.IsFirst [s] (cache.ofSymbol g s) := by
  unfold FirstCache.ofSymbol
  by_cases hkey : g.isKey s
  · rw [if_pos hkey]
    obtain ⟨first, hfirst⟩ := h.recorded.exists_symbol hkey
    rw [hfirst, Option.getD_some]
    exact (h.sound.symbols hfirst).2
  · rw [if_neg hkey]
    refine ⟨fun a => ?_, fun t ht => absurd (exposed_singleton_iff.mp ht).2 hkey⟩
    rw [← OrderedSet.mem_toList, OrderedSet.toList_singleton, List.mem_singleton,
      starts_singleton_iff_of_not_isKey hkey]

theorem exists_isFirst {key : Symbol} (h : cache.Complete g) (he : e ∈ g.alternatives key) :
    ∃ first, cache.expressions.get? e = some first ∧ g.IsFirst e first := by
  obtain ⟨first, hfirst⟩ := h.recorded.exists_expression he
  exact ⟨first, hfirst, h.sound.expressions hfirst⟩

end Complete
end FirstCache

namespace Grammar

open Relation

/-- The computation of the FIRST sets either finishes with all of them or fails with a
key that is exposed by itself. -/
theorem firstCache_outcome (g : Grammar) :
    (∃ cache, g.firstCache = .ok cache ∧ cache.Faithful g ∧ cache.Recorded g) ∨
      ∃ key, g.firstCache = .error key ∧ (¬ g.isKey .epsilon → TransGen g.Exposes key key) := by
  have h := First.meets_finishRules g.rules.entries (g := g) FirstCache.faithful_empty
  unfold firstCache
  cases hrun : (First.finishRules g g.rules.entries).run .empty with
  | error key => exact Or.inr ⟨key, rfl, h.of_error hrun⟩
  | ok result =>
    obtain ⟨hfaithful, _, hall⟩ := h.of_ok hrun
    refine Or.inl ⟨result.2, rfl, hfaithful, fun hkey => ?_, fun he => ?_⟩
    · exact (hall _ (mem_entries_of_isKey hkey)).1 hkey
    · exact (hall _ (mem_entries_of_isKey (isKey_of_mem_alternatives he))).2 _ he

/-- Either all FIRST sets are found, or a key is exposed by itself. -/
theorem firstCache_cases (hepsilon : ¬ g.isKey .epsilon) :
    (∃ cache, g.firstCache = .ok cache ∧ cache.Complete g) ∨
      ∃ key, g.firstCache = .error key ∧ TransGen g.Exposes key key := by
  rcases g.firstCache_outcome with ⟨cache, hcache, hfaithful, hrecorded⟩ | ⟨key, hkey, hcycle⟩
  · exact Or.inl ⟨cache, hcache, hfaithful.complete hepsilon hrecorded⟩
  · exact Or.inr ⟨key, hkey, hcycle hepsilon⟩

theorem not_exists_cycle_of_complete {cache : FirstCache} (h : cache.Complete g) :
    ¬ ∃ s, TransGen g.Exposes s s := by
  intro hcycle
  obtain ⟨s, hs⟩ := hcycle
  obtain ⟨t, _, hts⟩ := TransGen.tail'_iff.mp hs
  have hkey : g.isKey s := hts.isKey
  exact not_transGen_self_of_acc ((grounded_singleton_iff hkey).mp h.isFirst_ofSymbol.grounded) hs

theorem analyze_cases (hepsilon : ¬ g.isKey .epsilon) :
    ((∃ a, g.analyze = .ok a) ∧ ¬ ∃ s, TransGen g.Exposes s s) ∨
      ∃ key, g.analyze = .error key ∧ TransGen g.Exposes key key := by
  unfold analyze
  rcases firstCache_cases hepsilon with ⟨cache, hcache, hcomplete⟩ | ⟨key, hkey, hcycle⟩
  · rw [hcache]
    exact Or.inl ⟨⟨_, rfl⟩, not_exists_cycle_of_complete hcomplete⟩
  · rw [hkey]
    exact Or.inr ⟨key, rfl, hcycle⟩

theorem exists_analyze_iff (hepsilon : ¬ g.isKey .epsilon) :
    (∃ a, g.analyze = .ok a) ↔ ¬ ∃ s, TransGen g.Exposes s s := by
  rcases analyze_cases hepsilon with ⟨ha, hacyclic⟩ | ⟨key, hkey, hcycle⟩
  · exact iff_of_true ha hacyclic
  · refine iff_of_false (fun h => ?_) (not_not_intro ⟨key, hcycle⟩)
    obtain ⟨a, ha⟩ := h
    rw [hkey] at ha
    exact nomatch ha

/-- What an analysis that succeeds consists of. -/
theorem analyze_eq_ok (hepsilon : ¬ g.isKey .epsilon) {a : Analysis} (h : g.analyze = .ok a) :
    a.grammar = g ∧ a.cache.Complete g ∧ a.settled = g.followSets a.cache := by
  unfold analyze at h
  rcases firstCache_cases hepsilon with ⟨cache, hcache, hcomplete⟩ | ⟨key, hkey, _⟩
  · rw [hcache] at h
    obtain rfl := Except.ok.inj h
    exact ⟨rfl, hcomplete, rfl⟩
  · rw [hkey] at h
    exact nomatch h

theorem nullable_iff (hepsilon : ¬ g.isKey .epsilon) {a : Analysis} {s : Symbol}
    (h : g.analyze = .ok a) : a.nullable s ↔ g.isKey s ∧ g.Vanishes [s] := by
  obtain ⟨_, hcomplete, _⟩ := analyze_eq_ok hepsilon h
  unfold Analysis.nullable Analysis.first?
  cases hfirst : a.cache.symbols.get? s with
  | none =>
    refine iff_of_false Bool.false_ne_true fun hs => ?_
    have hmem := OrderedMap.mem_iff.mp (hcomplete.symbols hs.1)
    rw [hfirst] at hmem
    exact Bool.false_ne_true hmem
  | some first =>
    obtain ⟨hkey, hright⟩ := hcomplete.sound.symbols hfirst
    exact hright.nullable_iff.trans (and_iff_right hkey).symm

end Grammar
end LL1
