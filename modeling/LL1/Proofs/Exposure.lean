import LL1.Proofs.Derivation

/-!
# Exposed keys

A key is exposed in an expression if it stands there behind nothing but what
vanishes, and a symbol exposes what is exposed in its alternatives. The step is
hidden if there is something to vanish: a search that looks at first symbols only
does not see it. A chain of such steps is hidden if one of its steps is.

A symbol exposes a key in one or more steps exactly if it derives, in one or more steps,
a form that starts with the key.
-/

namespace LL1
namespace Grammar

open Relation

variable {g : Grammar} {s t u : Symbol} {e f : Expression}

/-- The key `t` stands in the expression behind a part that vanishes. -/
def Exposed (g : Grammar) (e : Expression) (t : Symbol) : Prop :=
  g.isKey t ∧ ∃ before after, e = before ++ t :: after ∧ g.Vanishes before

theorem not_exposed_nil : ¬ g.Exposed [] t := by
  rintro ⟨_, before, after, h, _⟩
  simp at h

theorem exposed_cons_iff :
    g.Exposed (s :: e) t ↔ (t = s ∧ g.isKey s) ∨ (g.Vanishes [s] ∧ g.Exposed e t) := by
  constructor
  · rintro ⟨hkey, before, after, h, hvanishes⟩
    cases before with
    | nil =>
      obtain ⟨rfl, rfl⟩ := List.cons_eq_cons.mp h
      exact Or.inl ⟨rfl, hkey⟩
    | cons b before =>
      obtain ⟨rfl, rfl⟩ := List.cons_eq_cons.mp h
      obtain ⟨hs, hbefore⟩ := vanishes_cons.mp hvanishes
      exact Or.inr ⟨hs, hkey, before, after, rfl, hbefore⟩
  · rintro (⟨rfl, hkey⟩ | ⟨hs, hkey, before, after, rfl, hbefore⟩)
    · exact ⟨hkey, [], e, rfl, vanishes_nil⟩
    · exact ⟨hkey, s :: before, after, rfl, vanishes_cons.mpr ⟨hs, hbefore⟩⟩

theorem exposed_singleton_iff : g.Exposed [s] t ↔ t = s ∧ g.isKey s := by
  rw [exposed_cons_iff]
  exact or_iff_left fun h => not_exposed_nil h.2

/-- Dropping the empty string exposes nothing. -/
theorem Exposed.of_withoutEpsilon (h : g.Exposed (Expression.withoutEpsilon e) t) :
    g.Exposed e t := by
  obtain ⟨hkey, before, after, heq, hvanishes⟩ := h
  obtain ⟨before', after', rfl, rfl, _⟩ := Expression.withoutEpsilon_eq_append_cons heq
  exact ⟨hkey, before', after', rfl, vanishes_withoutEpsilon_iff.mp hvanishes⟩

/-- The key `t` is exposed in an alternative of `s`. -/
def Exposes (g : Grammar) (s t : Symbol) : Prop := ∃ e ∈ g.alternatives s, g.Exposed e t

/-- The key `t` is exposed by `s`, and there is something before it. -/
def HiddenStep (g : Grammar) (s t : Symbol) : Prop :=
  g.isKey t ∧ ∃ before after, before ≠ [] ∧ before ++ t :: after ∈ g.alternatives s ∧
    g.Vanishes before

/-- A chain of exposed keys with a hidden step in it. -/
def HiddenChain (g : Grammar) (s t : Symbol) : Prop :=
  ∃ a b, ReflTransGen g.Exposes s a ∧ g.HiddenStep a b ∧ ReflTransGen g.Exposes b t

theorem Exposes.isKey (h : g.Exposes s t) : g.isKey t := by
  obtain ⟨_, _, hkey, _⟩ := h
  exact hkey

theorem Exposes.isKey_left (h : g.Exposes s t) : g.isKey s := by
  obtain ⟨e, he, _⟩ := h
  exact isKey_of_mem_alternatives he

theorem HiddenStep.exposes (h : g.HiddenStep s t) : g.Exposes s t := by
  obtain ⟨hkey, before, after, _, hmem, hvanishes⟩ := h
  exact ⟨_, hmem, hkey, before, after, rfl, hvanishes⟩

theorem HiddenStep.hiddenChain (h : g.HiddenStep s t) : g.HiddenChain s t :=
  ⟨s, t, .refl, h, .refl⟩

theorem HiddenChain.head (hst : ReflTransGen g.Exposes s t) (h : g.HiddenChain t u) :
    g.HiddenChain s u := by
  obtain ⟨a, b, hta, hab, hbu⟩ := h
  exact ⟨a, b, hst.trans hta, hab, hbu⟩

theorem HiddenChain.tail (h : g.HiddenChain s t) (htu : ReflTransGen g.Exposes t u) :
    g.HiddenChain s u := by
  obtain ⟨a, b, hsa, hab, hbt⟩ := h
  exact ⟨a, b, hsa, hab, hbt.trans htu⟩

theorem HiddenChain.transGen (h : g.HiddenChain s t) : TransGen g.Exposes s t := by
  obtain ⟨a, b, hsa, hab, hbt⟩ := h
  exact TransGen.trans_right hsa (TransGen.head' hab.exposes hbt)

/-! ## Exposure and derivations -/

theorem exposed_cons_self (hkey : g.isKey t) (w : List Symbol) : g.Exposed (t :: w) t :=
  exposed_cons_iff.mpr (Or.inl ⟨rfl, hkey⟩)

/-- What a step exposes was exposed before, or the key that was replaced exposes it. -/
theorem Exposed.of_step {form form' : List Symbol} (hstep : g.Step form form')
    (ht : g.Exposed form' t) : g.Exposed form t ∨ ∃ key, g.Exposed form key ∧ g.Exposes key t := by
  obtain ⟨hkey, u, v, heq, hvanishes⟩ := ht
  obtain @⟨key, e, before, after, he⟩ := hstep
  have hreplaced : g.isKey key := isKey_of_mem_alternatives he
  rcases append_eq_append_cons heq with ⟨mid, rfl, rfl⟩ | ⟨mid, rfl, hrest⟩
  · -- the key stands before the one that is replaced
    exact Or.inl ⟨hkey, u, mid ++ key :: after, by simp, hvanishes⟩
  · obtain ⟨hbefore, hmid⟩ := vanishes_append.mp hvanishes
    rcases append_eq_append_cons hrest with ⟨rest, hright, rfl⟩ | ⟨rest, rfl, rfl⟩
    · -- the key comes from the alternative
      have hexposed : g.Exposed e t := Exposed.of_withoutEpsilon ⟨hkey, mid, rest, hright, hmid⟩
      exact Or.inr ⟨key, ⟨hreplaced, before, after, rfl, hbefore⟩, e, he, hexposed⟩
    · -- the alternative vanishes, and with it the key that it replaces
      obtain ⟨hright, hrest⟩ := vanishes_append.mp hmid
      have hvanishes : g.Vanishes [key] :=
        vanishes_of_mem_alternatives he (vanishes_withoutEpsilon_iff.mp hright)
      refine Or.inl ⟨hkey, before ++ key :: rest, v, by simp, vanishes_append.mpr ⟨hbefore, ?_⟩⟩
      exact vanishes_cons.mpr ⟨hvanishes, hrest⟩

theorem Exposed.of_derives {form form' : List Symbol} (hderives : g.Derives form form')
    (ht : g.Exposed form' t) : ∃ s, g.Exposed form s ∧ ReflTransGen g.Exposes s t := by
  induction hderives using ReflTransGen.head_induction_on with
  | refl => exact ⟨t, ht, .refl⟩
  | head hstep _ ih =>
    obtain ⟨s, hs, hst⟩ := ih
    rcases hs.of_step hstep with hs | ⟨key, hkey, hexposes⟩
    · exact ⟨s, hs, hst⟩
    · exact ⟨key, hkey, hst.head hexposes⟩

/-- The prefix before an exposed key is derived away. -/
theorem Exposes.transGen_step (hepsilon : ¬ g.isKey .epsilon) (h : g.Exposes s t) :
    ∃ w, TransGen g.Step [s] (t :: w) := by
  obtain ⟨e, he, hkey, before, after, rfl, hvanishes⟩ := h
  have ht : t ≠ .epsilon := fun heq => hepsilon (heq ▸ hkey)
  have hstep : g.Step [s] (Expression.withoutEpsilon (before ++ t :: after)) :=
    step_singleton_iff.mpr ⟨_, he, rfl⟩
  rw [Expression.withoutEpsilon_append, Expression.withoutEpsilon_cons_of_ne ht] at hstep
  exact ⟨_, TransGen.head' hstep (hvanishes.append (.refl _))⟩

theorem transGen_exposes_iff (hepsilon : ¬ g.isKey .epsilon) :
    TransGen g.Exposes s t ↔ g.isKey t ∧ ∃ w, TransGen g.Step [s] (t :: w) := by
  constructor
  · intro h
    induction h with
    | single h => exact ⟨h.isKey, h.transGen_step hepsilon⟩
    | tail _ h ih =>
      obtain ⟨_, w, hw⟩ := ih
      obtain ⟨v, hv⟩ := h.transGen_step hepsilon
      have hlift := TransGen.lift (· ++ w) (fun _ _ (h : g.Step _ _) => h.append_right w) _ _ hv
      exact ⟨h.isKey, v ++ w, hw.trans hlift⟩
  · rintro ⟨hkey, w, hw⟩
    obtain ⟨form, hstep, hderives⟩ := TransGen.head'_iff.mp hw
    obtain ⟨e, he, rfl⟩ := step_singleton_iff.mp hstep
    obtain ⟨x, hx, hxt⟩ := (exposed_cons_self hkey w).of_derives hderives
    exact TransGen.head' ⟨e, he, hx.of_withoutEpsilon⟩ hxt

end Grammar
end LL1
