import LL1.Proofs.Exposure
import LL1.Proofs.LeftRecursion.Expansion

/-!
# What an expanded alternative traces

Without helpers and empty-string symbols an expanded alternative is a form that its
key derives, and the part of it in front of a helper is one that the helper's owner
derives. Such a part is what the owner was continued with, so if it derives the
empty string, the owner does too. A symbol behind a part that vanishes is therefore
one that the key exposes in one or more steps of the original grammar, and one of
the steps is hidden unless the part is empty.
-/

namespace LL1

namespace Grammar

open Relation Expression

variable {g r : Grammar} {helper : Symbol → Option Symbol} {key h j s : Symbol}
  {e f d rest : Expression}

/-- The symbols of an expression that the grammar has, without the empty string. -/
def bare (g : Grammar) (e : Expression) : List Symbol := withoutEpsilon (e.filter (· ∈ g.symbols))

@[simp]
theorem bare_nil : g.bare [] = [] := rfl

@[simp]
theorem bare_append : g.bare (e ++ f) = g.bare e ++ g.bare f := by
  unfold bare
  rw [List.filter_append, withoutEpsilon_append]

theorem bare_cons (s : Symbol) (e : Expression) : g.bare (s :: e) = g.bare [s] ++ g.bare e :=
  bare_append (e := [s])

@[simp]
theorem bare_withoutEpsilon : g.bare (withoutEpsilon e) = g.bare e := by
  unfold bare withoutEpsilon
  rw [List.filter_filter, List.filter_filter, List.filter_filter]
  refine List.filter_congr fun s _ => ?_
  cases s.isEpsilon <;> simp

theorem bare_join : g.bare (e.join f) = g.bare (e ++ f) := by
  rw [← bare_withoutEpsilon, withoutEpsilon_join, ← withoutEpsilon_append, bare_withoutEpsilon]

theorem bare_of_forall_mem (h : ∀ s ∈ e, s ∈ g.symbols) : g.bare e = withoutEpsilon e := by
  unfold bare
  rw [List.filter_eq_self.mpr fun s hs => decide_eq_true (h s hs)]

theorem bare_of_mem_alternatives (he : e ∈ g.alternatives key) : g.bare e = withoutEpsilon e :=
  bare_of_forall_mem fun _ hs => mem_symbols_of_mem_alternatives he hs

theorem bare_of_isKey (hs : g.isKey s) (hne : s ≠ .epsilon) : g.bare [s] = [s] := by
  have hmem : ∀ t ∈ [s], t ∈ g.symbols := fun t ht =>
    List.mem_singleton.mp ht ▸ mem_symbols_of_isKey hs
  rw [bare_of_forall_mem hmem, withoutEpsilon_cons_of_ne hne, withoutEpsilon_nil]

theorem Rewrites.bare_helper (hr : Rewrites g r helper) (hh : helper key = some h) :
    g.bare [h] = [] := by
  unfold bare
  rw [List.filter_cons_of_neg (by simpa using hr.not_mem_symbols hh), List.filter_nil,
    withoutEpsilon_nil]

theorem Rewrites.bare_toList (hr : Rewrites g r helper) (key : Symbol) :
    g.bare (helper key).toList = [] := by
  cases hh : helper key with
  | none => rfl
  | some new => exact hr.bare_helper hh

/-- What an expanded alternative of a key says about the original grammar. -/
structure Traced (g : Grammar) (helper : Symbol → Option Symbol) (key : Symbol)
    (e : Expression) : Prop where
  derives : g.Derives [key] (g.bare e)
  before_helper {owner h : Symbol} {u v : Expression} : e = u ++ h :: v →
    helper owner = some h → g.Derives [owner] (g.bare u)
  exposes_owner {owner h : Symbol} {u v : Expression} : e = u ++ h :: v →
    helper owner = some h → g.Derives (g.bare u) [] → ReflTransGen g.Exposes key owner
  exposes {s : Symbol} {u v : Expression} : e = u ++ s :: v → g.isKey s →
    g.Derives (g.bare u) [] → TransGen g.Exposes key s ∧ (u ≠ [] → g.HiddenChain key s)

theorem Rewrites.traced_original (hr : Rewrites g r helper) (he : e ∈ g.alternatives key) :
    g.Traced helper key e where
  derives := by
    rw [bare_of_mem_alternatives he]
    exact derives_of_mem_alternatives he
  before_helper {_ h u v} heq hh := by
    have hmem : h ∈ e := by simp [heq]
    exact absurd (mem_symbols_of_mem_alternatives he hmem) (hr.not_mem_symbols hh)
  exposes_owner {_ h u v} heq hh _ := by
    have hmem : h ∈ e := by simp [heq]
    exact absurd (mem_symbols_of_mem_alternatives he hmem) (hr.not_mem_symbols hh)
  exposes {s u v} heq hs hu := by
    have hsub : ∀ t ∈ u, t ∈ g.symbols := fun t ht =>
      mem_symbols_of_mem_alternatives he (by simp [heq, ht])
    rw [bare_of_forall_mem hsub] at hu
    have hexposes : g.Exposes key s := ⟨e, he, hs, u, v, heq, hu⟩
    refine ⟨.single hexposes, fun hne => ?_⟩
    have hstep : g.HiddenStep key s := ⟨hs, u, v, hne, heq ▸ he, hu⟩
    exact hstep.hiddenChain

theorem Traced.withoutEpsilon (ht : g.Traced helper key e) :
    g.Traced helper key (withoutEpsilon e) where
  derives := by
    rw [bare_withoutEpsilon]
    exact ht.derives
  before_helper heq hh := by
    obtain ⟨u', v', he, rfl, _⟩ := withoutEpsilon_eq_append_cons heq
    rw [bare_withoutEpsilon]
    exact ht.before_helper he hh
  exposes_owner heq hh hu := by
    obtain ⟨u', v', he, rfl, _⟩ := withoutEpsilon_eq_append_cons heq
    rw [bare_withoutEpsilon] at hu
    exact ht.exposes_owner he hh hu
  exposes heq hs hu := by
    obtain ⟨u', v', he, rfl, _⟩ := withoutEpsilon_eq_append_cons heq
    rw [bare_withoutEpsilon] at hu
    obtain ⟨hexposes, hhidden⟩ := ht.exposes he hs hu
    exact ⟨hexposes, fun hne => hhidden fun hnil => hne (by rw [hnil, withoutEpsilon_nil])⟩

/-- Joining drops empty-string symbols and may leave a single one. -/
theorem Rewrites.traced_join (hr : Rewrites g r helper) (hepsilon : ¬ g.isKey .epsilon)
    (ht : g.Traced helper key (e ++ f)) : g.Traced helper key (e.join f) := by
  rcases join_eq e f with heq | ⟨hnil, heq⟩
  · rw [heq]
    exact ht.withoutEpsilon
  · have hsingle : ∀ {s : Symbol} {u v : Expression}, e.join f = u ++ s :: v → s = .epsilon := by
      intro s u v hsplit
      have hmem : s ∈ e.join f := by simp [hsplit]
      rw [heq] at hmem
      exact List.mem_singleton.mp hmem
    refine ⟨?_, fun hsplit hh => ?_, fun hsplit hh _ => ?_, fun hsplit hs _ => ?_⟩
    · rw [bare_join]
      exact ht.derives
    · exact absurd (hsingle hsplit) (hr.helper_ne_epsilon hh)
    · exact absurd (hsingle hsplit) (hr.helper_ne_epsilon hh)
    · exact absurd (hsingle hsplit ▸ hs) hepsilon

/-- The helper of a key may stand behind what the key derives. -/
theorem Rewrites.traced_helper (hr : Rewrites g r helper) (ht : g.Traced helper key e) :
    g.Traced helper key (e ++ (helper key).toList) := by
  cases hh : helper key with
  | none =>
    rw [Option.toList_none, List.append_nil]
    exact ht
  | some new =>
    rw [Option.toList_some]
    have hlast : ∀ {s : Symbol} {mid v : Expression}, [new] = mid ++ s :: v → mid = [] ∧ s = new := by
      intro s mid v heq
      cases mid with
      | nil => exact ⟨rfl, (List.cons_eq_cons.mp heq).1.symm⟩
      | cons t mid => simp at heq
    refine ⟨?_, fun {owner k u v} heq hk => ?_, fun {owner k u v} heq hk hu => ?_,
      fun {s u v} heq hs hu => ?_⟩
    · rw [bare_append, hr.bare_helper hh, List.append_nil]
      exact ht.derives
    · rcases append_eq_append_cons heq with ⟨mid, he, _⟩ | ⟨mid, rfl, hmid⟩
      · exact ht.before_helper he hk
      · obtain ⟨rfl, rfl⟩ := hlast hmid
        rw [List.append_nil, hr.helper_injective hk hh]
        exact ht.derives
    · rcases append_eq_append_cons heq with ⟨mid, he, _⟩ | ⟨mid, rfl, hmid⟩
      · exact ht.exposes_owner he hk hu
      · obtain ⟨rfl, rfl⟩ := hlast hmid
        rw [hr.helper_injective hk hh]
    · rcases append_eq_append_cons heq with ⟨mid, he, _⟩ | ⟨mid, rfl, hmid⟩
      · exact ht.exposes he hs hu
      · obtain ⟨rfl, rfl⟩ := hlast hmid
        exact absurd (mem_symbols_of_isKey hs) (hr.not_mem_symbols hh)

/-- What an alternative of `j` traces is traced by what `j` leads. -/
theorem Traced.replace (hrest : g.Traced helper key (j :: rest)) (hf : g.Traced helper j f)
    (hj : g.isKey j) (hne : j ≠ .epsilon) : g.Traced helper key (f ++ rest) := by
  have hlead : TransGen g.Exposes key j := (hrest.exposes (u := []) rfl hj (.refl [])).1
  -- If what replaces `j` vanishes, so does `j`.
  have hbehind : ∀ {mid : Expression}, g.Derives (g.bare (f ++ mid)) [] →
      g.Derives (g.bare (j :: mid)) [] := by
    intro mid hmid
    rw [bare_append] at hmid
    rw [bare_cons, bare_of_isKey hj hne]
    exact (hf.derives.append (.refl _)).trans hmid
  refine ⟨?_, fun {owner k u v} heq hk => ?_, fun {owner k u v} heq hk hu => ?_,
    fun {s u v} heq hs hu => ?_⟩
  · have hderives := hrest.derives
    rw [bare_cons, bare_of_isKey hj hne] at hderives
    rw [bare_append]
    exact hderives.trans (hf.derives.append (.refl _))
  · rcases append_eq_append_cons heq with ⟨mid, hmid, _⟩ | ⟨mid, rfl, hmid⟩
    · exact hf.before_helper hmid hk
    · have hderives := hrest.before_helper (u := j :: mid) (by rw [hmid]; rfl) hk
      rw [bare_cons, bare_of_isKey hj hne] at hderives
      rw [bare_append]
      exact hderives.trans (hf.derives.append (.refl _))
  · rcases append_eq_append_cons heq with ⟨mid, hmid, _⟩ | ⟨mid, rfl, hmid⟩
    · exact hlead.to_reflTransGen.trans (hf.exposes_owner hmid hk hu)
    · exact hrest.exposes_owner (u := j :: mid) (by rw [hmid]; rfl) hk (hbehind hu)
  · rcases append_eq_append_cons heq with ⟨mid, hmid, _⟩ | ⟨mid, rfl, hmid⟩
    · obtain ⟨hexposes, hhidden⟩ := hf.exposes hmid hs hu
      exact ⟨hlead.trans hexposes, fun hne => (hhidden hne).head hlead.to_reflTransGen⟩
    · obtain ⟨hexposes, hhidden⟩ :=
        hrest.exposes (u := j :: mid) (by rw [hmid]; rfl) hs (hbehind hu)
      exact ⟨hexposes, fun _ => hhidden (List.cons_ne_nil j mid)⟩

theorem Rewrites.traced_expanded (hr : Rewrites g r helper) (hepsilon : ¬ g.isKey .epsilon)
    (hkey : g.isKey key) (he : e ∈ g.expanded r key) : g.Traced helper key e := by
  have hmotive : ExpansionMotive g r helper fun key _ e => g.Traced helper key e := by
    refine ⟨fun he => hr.traced_original he, fun _ ht _ => ht, ?_⟩
    intro key j rest f hj hrest hall hf _
    have hjkey : g.isKey j := isKey_of_mem_keysBefore hj
    have hne : j ≠ .epsilon := fun heq => hepsilon (heq ▸ hjkey)
    exact hr.traced_join hepsilon (hrest.replace (hr.traced_helper (hall f hf)) hjkey hne)
  exact hr.expanded_induction hmotive hkey e he

end Grammar
end LL1
