import LL1.Proofs.LeftRecursion.Preservation
import LL1.Proofs.LeftRecursion.Removal
import LL1.Proofs.LeftRecursion.Symbols

/-!
# Grammars without the empty string

Without empty alternatives nothing vanishes before the elimination, and afterwards
the helpers are all that does. A key then starts its alternatives with later keys or
with symbols that are no keys, so no cycle of exposed keys passes through it. A
helper exposes helpers of earlier keys, and it exposes itself exactly if nothing but
such helpers stands behind its owner in a recursive alternative.
-/

namespace LL1
namespace Grammar

open Relation Expression Elimination

variable {g r : Grammar} {helper : Symbol → Option Symbol} {key h j s t : Symbol}
  {e f tail : Expression} {a b : List Symbol}

theorem join_eq_append (he : .epsilon ∉ e) (hf : .epsilon ∉ f) (hne : e ++ f ≠ []) :
    e.join f = e ++ f := by
  have hall : withoutEpsilon (e ++ f) = e ++ f := by
    refine List.filter_eq_self.mpr fun s hs => ?_
    have hs : s ≠ .epsilon := fun heq => by
      rw [heq, List.mem_append] at hs
      exact hs.elim he hf
    simp [Symbol.isEpsilon, hs]
  rcases join_eq e f with heq | ⟨hnil, _⟩
  · rw [heq, hall]
  · exact absurd (hall.symm.trans hnil) hne

/-- Every alternative has a symbol, and none of its symbols is the empty string. -/
structure EpsilonFree (g : Grammar) : Prop where
  not_isKey : ¬ g.isKey .epsilon
  ne_nil {key : Symbol} {e : Expression} : e ∈ g.alternatives key → e ≠ []
  not_mem {key : Symbol} {e : Expression} : e ∈ g.alternatives key → .epsilon ∉ e

theorem withoutEpsilon_of_not_mem (h : .epsilon ∉ e) : withoutEpsilon e = e := by
  refine List.filter_eq_self.mpr fun s hs => ?_
  have hs : s ≠ .epsilon := fun heq => h (heq ▸ hs)
  simp [Symbol.isEpsilon, hs]

theorem EpsilonFree.ne_epsilon (hfree : g.EpsilonFree) (hkey : g.isKey key) : key ≠ .epsilon :=
  fun heq => hfree.not_isKey (heq ▸ hkey)

/-- No form but the empty one derives the empty one. -/
theorem EpsilonFree.eq_nil_of_derives (hfree : g.EpsilonFree) (h : g.Derives a []) : a = [] := by
  rcases ReflTransGen.cases_tail h with heq | ⟨b, _, hstep⟩
  · exact heq.symm
  · generalize hnil : ([] : List Symbol) = c at hstep
    obtain ⟨before, after, he⟩ := hstep
    have hne := hfree.ne_nil he
    rw [withoutEpsilon_of_not_mem (hfree.not_mem he)] at hnil
    simp [hne] at hnil

theorem EpsilonFree.not_hiddenChain (hfree : g.EpsilonFree) (s t : Symbol) :
    ¬ g.HiddenChain s t := by
  intro h
  obtain ⟨_, _, _, ⟨_, before, after, hne, hmem, hvanishes⟩, _⟩ := h
  have hbefore : .epsilon ∉ before := fun hmem' =>
    hfree.not_mem hmem (List.mem_append_left _ hmem')
  have hnil := hfree.eq_nil_of_derives hvanishes
  rw [withoutEpsilon_of_not_mem hbefore] at hnil
  exact hne hnil

/-- A key has an expanded alternative in which nothing but helpers stands behind the key
itself. -/
def Hollow (g r : Grammar) (key : Symbol) : Prop :=
  g.isKey key ∧ ∃ tail, tail ≠ [] ∧ key :: tail ∈ g.expanded r key ∧ g.bare tail = []

end Grammar

namespace Grammar.Rewrites

open Relation Expression Elimination

variable {g r : Grammar} {helper : Symbol → Option Symbol} {key h j s t : Symbol}
  {e f tail : Expression} {a b : List Symbol}

/-! ## Expanded alternatives -/

theorem bare_ne_nil (hr : Rewrites g r helper) (hfree : g.EpsilonFree) (hkey : g.isKey key)
    (he : e ∈ g.expanded r key) : g.bare e ≠ [] := by
  intro hnil
  have hderives := (hr.traced_expanded hfree.not_isKey hkey he).derives
  rw [hnil] at hderives
  exact absurd (hfree.eq_nil_of_derives hderives) (List.cons_ne_nil key [])

theorem epsilon_not_mem_expanded (hr : Rewrites g r helper) (hfree : g.EpsilonFree)
    (hkey : g.isKey key) (he : e ∈ g.expanded r key) : .epsilon ∉ e := by
  intro hmem
  rcases hr.mem_alternatives_of_epsilon_mem hkey he hmem with horiginal | heq
  · exact hfree.not_mem horiginal hmem
  · refine hr.bare_ne_nil hfree hkey he ?_
    rw [← bare_withoutEpsilon, heq, withoutEpsilon_epsilon, bare_nil]

theorem ne_nil_of_mem_expanded (hr : Rewrites g r helper) (hfree : g.EpsilonFree)
    (hkey : g.isKey key) (he : e ∈ g.expanded r key) : e ≠ [] := fun hnil =>
  hr.bare_ne_nil hfree hkey he (by rw [hnil, bare_nil])

theorem epsilon_not_mem_helper (hr : Rewrites g r helper) (key : Symbol) :
    .epsilon ∉ (helper key).toList := by
  rw [Option.mem_toList]
  exact fun hh => hr.helper_ne_epsilon hh rfl

theorem join_tail (hr : Rewrites g r helper) (hfree : g.EpsilonFree) (hh : helper key = some h)
    (hmem : key :: tail ∈ g.expanded r key) : Expression.join tail [h] = tail ++ [h] := by
  have hfull := hr.epsilon_not_mem_expanded hfree (hr.isKey_of_helper hh) hmem
  have hnot := hr.epsilon_not_mem_helper key
  rw [hh, Option.toList_some] at hnot
  exact join_eq_append (fun hm => hfull (List.mem_cons_of_mem key hm)) hnot (by simp)

/-- A final alternative is an expanded one with the helper of its key behind it. -/
theorem continued_eq (hr : Rewrites g r helper) (hfree : g.EpsilonFree) (hkey : g.isKey key)
    (he : e ∈ g.expanded r key) : e.continued (helper key) = e ++ (helper key).toList := by
  have hnot := hr.epsilon_not_mem_helper key
  cases hh : helper key with
  | none => exact (List.append_nil e).symm
  | some new =>
    rw [hh, Option.toList_some] at hnot
    exact join_eq_append (hr.epsilon_not_mem_expanded hfree hkey he) hnot (by simp)

/-- No expanded alternative starts with a helper. -/
theorem helper_ne_head (hr : Rewrites g r helper) (hfree : g.EpsilonFree) (hkey : g.isKey key)
    (he : s :: tail ∈ g.expanded r key) (owner : Symbol) : helper owner ≠ some s := by
  intro hh
  have hderives := (hr.traced_expanded hfree.not_isKey hkey he).before_helper (u := []) rfl hh
  exact absurd (hfree.eq_nil_of_derives hderives) (List.cons_ne_nil owner [])

theorem helper_ne_none_iff (hr : Rewrites g r helper) (hkey : g.isKey key) (hne : key ≠ .epsilon) :
    helper key ≠ none ↔ ∃ tail, tail ≠ [] ∧ key :: tail ∈ g.expanded r key := by
  have htails : recursiveTails key (g.expanded r key) ≠ [] ↔
      ∃ tail, tail ≠ [] ∧ key :: tail ∈ g.expanded r key := by
    constructor
    · intro h
      obtain ⟨tail, htail⟩ := List.exists_mem_of_ne_nil _ h
      exact ⟨tail, (mem_recursiveTails.mp htail).2⟩
    · intro h
      obtain ⟨tail, htail⟩ := h
      exact List.ne_nil_of_mem (mem_recursiveTails.mpr ⟨hne, htail⟩)
  rw [← htails]
  cases hh : helper key with
  | none => exact iff_of_false (fun h => h rfl) fun h => h (hr.alternatives_plain hkey hh).1
  | some new => exact iff_of_true (by simp) (hr.alternatives_helped hh).1

/-! ## What vanishes -/

theorem vanishes_singleton_iff_helper (hr : Rewrites g r helper) (hfree : g.EpsilonFree)
    (hs : s ≠ .epsilon) : r.Vanishes [s] ↔ ∃ owner, helper owner = some s := by
  have hbare : withoutEpsilon [s] = [s] := withoutEpsilon_cons_of_ne hs []
  constructor
  · intro h
    rw [Vanishes, hbare] at h
    by_cases hskey : r.isKey s
    · refine ((hr.isKey_iff s).mp hskey).resolve_left fun hold => ?_
      have hmem : [] ∈ r.language s := ⟨h, by simp⟩
      rw [hr.language_eq hold] at hmem
      exact absurd (hfree.eq_nil_of_derives hmem.1) (List.cons_ne_nil s [])
    · exact absurd ((derives_singleton_iff_of_not_isKey hskey).mp h).symm (List.cons_ne_nil s [])
  · intro h
    obtain ⟨owner, hh⟩ := h
    exact vanishes_of_mem_alternatives ((hr.mem_alternatives_helper hh).mpr (Or.inr rfl))
      vanishes_epsilon

/-! ## What is exposed -/

/-- Keys expose later keys. -/
theorem exposes_of_isKey (hr : Rewrites g r helper) (hfree : g.EpsilonFree) (hkey : g.isKey key)
    (h : r.Exposes key t) : g.isKey t ∧ key ∈ g.keysBefore t := by
  obtain ⟨e, he, ht, u, v, heq, hu⟩ := h
  obtain ⟨f, hf, _, hcontinued⟩ := (hr.mem_alternatives hkey).mp he
  obtain ⟨x, f', rfl⟩ := List.exists_cons_of_ne_nil (hr.ne_nil_of_mem_expanded hfree hkey hf)
  have hx : x ≠ .epsilon := fun hx =>
    hr.epsilon_not_mem_expanded hfree hkey hf (by simp [hx])
  have hhead : e = x :: (f' ++ (helper key).toList) := by
    rw [← hcontinued, hr.continued_eq hfree hkey hf, List.cons_append]
  cases u with
  | nil =>
    obtain ⟨rfl, _⟩ := List.cons_eq_cons.mp (hhead.symm.trans heq)
    have htkey : g.isKey x := ((hr.isKey_iff x).mp ht).resolve_right fun hh => by
      obtain ⟨owner, hh⟩ := hh
      exact hr.helper_ne_head hfree hkey hf owner hh
    have hlead : r.LeadsTo key x := leadsTo_iff.mpr ⟨ht, _, hhead ▸ he⟩
    have horder := (hr.leadsTo_key hfree.not_isKey hkey htkey hlead).2
    exact ⟨htkey, horder.resolve_right (hfree.not_hiddenChain key x)⟩
  | cons y u =>
    obtain ⟨rfl, _⟩ := List.cons_eq_cons.mp (hhead.symm.trans heq)
    obtain ⟨owner, hh⟩ := (hr.vanishes_singleton_iff_helper hfree hx).mp (vanishes_cons.mp hu).1
    exact absurd hh (hr.helper_ne_head hfree hkey hf owner)

/-- Without empty-string symbols, bare of everything is what consists of helpers. -/
theorem bare_eq_nil_iff (hr : Rewrites g r helper) (hfree : g.EpsilonFree) (hkey : g.isKey key)
    (he : key :: tail ∈ g.expanded r key) :
    g.bare tail = [] ↔ ∀ s ∈ tail, ∃ owner, helper owner = some s := by
  have hepsilon := hr.epsilon_not_mem_expanded hfree hkey he
  have hne : ∀ s ∈ tail, s ≠ .epsilon := fun s hs heq =>
    hepsilon (List.mem_cons_of_mem key (heq ▸ hs))
  have hnil : g.bare tail = [] ↔ ∀ s ∈ tail, s ∉ g.symbols := by
    unfold bare
    rw [withoutEpsilon_eq_nil_iff]
    constructor
    · intro h s hs hmem
      exact hne s hs (h s (List.mem_filter.mpr ⟨hs, decide_eq_true hmem⟩))
    · intro h s hs
      have hs := List.mem_filter.mp hs
      exact absurd (of_decide_eq_true hs.2) (h s hs.1)
  rw [hnil]
  constructor
  · intro h s hs
    exact (hr.mem_symbols_or_helper hkey he (List.mem_cons_of_mem key hs) (hne s hs)).resolve_left
      (h s hs)
  · intro h s hs
    obtain ⟨owner, hh⟩ := h s hs
    exact hr.not_mem_symbols hh

/-- Helpers expose keys, helpers of earlier keys, and themselves if their owner is
hollow. -/
theorem exposes_of_helper (hr : Rewrites g r helper) (hfree : g.EpsilonFree)
    (hh : helper key = some h) (hexposes : r.Exposes h t) :
    g.isKey t ∨ (∃ owner ∈ g.keysBefore key, helper owner = some t) ∨ g.Hollow r key := by
  have hkey := hr.isKey_of_helper hh
  obtain ⟨e, he, ht, u, v, heq, hu⟩ := hexposes
  rcases (hr.mem_alternatives_helper hh).mp he with ⟨_, tail, htail, hmem, hjoin⟩ | hepsilon
  · have hfull := hr.epsilon_not_mem_expanded hfree hkey hmem
    rw [hr.join_tail hfree hh hmem] at hjoin
    rcases append_eq_append_cons (hjoin.trans heq) with ⟨mid, rfl, _⟩ | ⟨mid, rfl, _⟩
    · rcases (hr.isKey_iff t).mp ht with hold | ⟨owner, howner⟩
      · exact Or.inl hold
      · exact Or.inr (Or.inl ⟨owner, hr.owner_mem_keysBefore hkey hmem howner (by simp), howner⟩)
    · refine Or.inr (Or.inr ⟨hkey, tail, htail, hmem, (hr.bare_eq_nil_iff hfree hkey hmem).mpr ?_⟩)
      intro s hs
      have hs' : s ≠ .epsilon := fun hs' => hfull (List.mem_cons_of_mem key (hs' ▸ hs))
      have hvanishes := vanishes_iff_forall.mp hu s (List.mem_append_left mid hs)
      exact (hr.vanishes_singleton_iff_helper hfree hs').mp hvanishes
  · rw [hepsilon, Expression.epsilon] at heq
    have hmem : t ∈ [Symbol.epsilon] := by rw [heq]; simp
    rw [List.mem_singleton.mp hmem] at ht
    rcases (hr.isKey_iff _).mp ht with hold | ⟨owner, howner⟩
    · exact absurd hold hfree.not_isKey
    · exact absurd rfl (hr.helper_ne_epsilon howner)

theorem chain_of_isKey (hr : Rewrites g r helper) (hfree : g.EpsilonFree) (hkey : g.isKey key)
    (h : TransGen r.Exposes key t) : g.isKey t ∧ key ∈ g.keysBefore t := by
  induction h with
  | single h => exact hr.exposes_of_isKey hfree hkey h
  | tail _ h ih =>
    obtain ⟨ht, hbefore⟩ := hr.exposes_of_isKey hfree ih.1 h
    exact ⟨ht, mem_keysBefore_trans ht hbefore ih.2⟩

theorem chain_of_helper_exposes (hr : Rewrites g r helper) (hfree : g.EpsilonFree)
    (hhollow : ∀ key, ¬ g.Hollow r key) (hh : helper key = some h)
    (hchain : TransGen r.Exposes h t) :
    g.isKey t ∨ ∃ owner ∈ g.keysBefore key, helper owner = some t := by
  induction hchain with
  | single hexposes =>
    refine (hr.exposes_of_helper hfree hh hexposes).imp_right fun hnext => ?_
    exact hnext.resolve_right (hhollow key)
  | tail _ hexposes ih =>
    rcases ih with hmiddle | ⟨middle, hbefore, hmiddle⟩
    · exact Or.inl (hr.exposes_of_isKey hfree hmiddle hexposes).1
    · rcases hr.exposes_of_helper hfree hmiddle hexposes with ht | ⟨owner, hfirst, howner⟩ | h
      · exact Or.inl ht
      · exact Or.inr ⟨owner, mem_keysBefore_trans (hr.isKey_of_helper hh) hbefore hfirst, howner⟩
      · exact absurd h (hhollow middle)

/-- Exposed keys form a cycle exactly if a key is hollow. -/
theorem exists_cycle_iff (hr : Rewrites g r helper) (hfree : g.EpsilonFree) :
    (∃ s, TransGen r.Exposes s s) ↔ ∃ key, g.Hollow r key := by
  constructor
  · intro hcycle
    obtain ⟨s, hs⟩ := hcycle
    by_contra hnone
    have hhollow : ∀ key, ¬ g.Hollow r key := fun key h => hnone ⟨key, h⟩
    obtain ⟨_, _, hlast⟩ := TransGen.tail'_iff.mp hs
    rcases (hr.isKey_iff s).mp hlast.isKey with hskey | ⟨owner, howner⟩
    · exact not_mem_keysBefore_self (hr.chain_of_isKey hfree hskey hs).2
    · rcases hr.chain_of_helper_exposes hfree hhollow howner hs with hskey | ⟨b, hb, hbs⟩
      · exact hr.not_mem_symbols howner (mem_symbols_of_isKey hskey)
      · rw [hr.helper_injective hbs howner] at hb
        exact not_mem_keysBefore_self hb
  · intro h
    obtain ⟨key, hkey, tail, htail, hmem, hbare⟩ := h
    have hne := hfree.ne_epsilon hkey
    obtain ⟨new, hh⟩ := Option.ne_none_iff_exists'.mp
      ((hr.helper_ne_none_iff hkey hne).mpr ⟨tail, htail, hmem⟩)
    have hfull := hr.epsilon_not_mem_expanded hfree hkey hmem
    have hjoin := hr.join_tail hfree hh hmem
    have hvanishes : r.Vanishes tail := by
      rw [vanishes_iff_forall]
      intro s hs
      have hs' : s ≠ .epsilon := fun hs' => hfull (List.mem_cons_of_mem key (hs' ▸ hs))
      exact (hr.vanishes_singleton_iff_helper hfree hs').mpr
        ((hr.bare_eq_nil_iff hfree hkey hmem).mp hbare s hs)
    refine ⟨new, .single ⟨tail ++ [new], ?_, hr.isKey_helper hh, tail, [], rfl, hvanishes⟩⟩
    exact (hr.mem_alternatives_helper hh).mpr (Or.inl ⟨hne, tail, htail, hmem, hjoin⟩)

end Grammar.Rewrites
end LL1
