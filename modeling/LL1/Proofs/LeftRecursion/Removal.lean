import LL1.Proofs.Bnf.Shape
import LL1.Proofs.LeftRecursion.Chain
import LL1.Proofs.LeftRecursion.Trace

/-!
# Left recursion is removed

In the rewritten grammar a key leads to later keys, unless the original grammar hides
the step: a symbol that was behind something that vanishes can come to the front, and
it may be an earlier one. A key leads to a helper only if the owner of the helper
derives the empty string, and a helper of such an owner leads to nothing that the
owner does not expose behind something. A helper that leads to another one leads to
that of an earlier key.

A cycle through a key is therefore a hidden one of the original grammar. A cycle
through helpers alone has to stay at one of them, and that needs an alternative that
consists of its owner and of empty-string symbols.
-/

namespace LL1
namespace Grammar

open Relation Expression

variable {g r : Grammar} {helper : Symbol → Option Symbol} {key h j s : Symbol}
  {e f rest : Expression} {replaced : List Symbol}

/-! ## The first symbols of expanded alternatives -/

/-- An alternative starts with none of the keys that have been replaced, unless it has
come to do so by a hidden chain. -/
def HeadClear (g : Grammar) (key : Symbol) (replaced : List Symbol) (e : Expression) : Prop :=
  ∀ s rest, e = s :: rest → g.isKey s → s ∉ replaced ∨ g.HiddenChain key s

theorem HeadClear.join (ht : g.Traced helper key (e ++ f)) (h : g.HeadClear key replaced (e ++ f))
    (hepsilon : ¬ g.isKey .epsilon) : g.HeadClear key replaced (e.join f) := by
  intro s rest heq hs
  rcases join_eq e f with hjoin | ⟨_, hjoin⟩
  · rw [hjoin] at heq
    obtain ⟨u, v, hsplit, hu, _⟩ := withoutEpsilon_eq_append_cons (u := []) heq
    cases u with
    | nil => exact h s v hsplit hs
    | cons t u =>
      have hbare : g.Derives (g.bare (t :: u)) [] := by
        rw [← bare_withoutEpsilon, hu, bare_nil]
        exact .refl []
      exact Or.inr ((ht.exposes hsplit hs hbare).2 (List.cons_ne_nil t u))
  · rw [hjoin] at heq
    obtain ⟨rfl, _⟩ := List.cons_eq_cons.mp heq
    exact absurd hs hepsilon

theorem HeadClear.keep (h : g.HeadClear key replaced e) (hj : j ≠ .epsilon)
    (hled : ¬ e.isLedBy j) : g.HeadClear key (replaced ++ [j]) e := by
  intro s rest heq hs
  refine (h s rest heq hs).imp_left fun hnot hmem => ?_
  rcases List.mem_append.mp hmem with hmem | hmem
  · exact hnot hmem
  · refine hled (isLedBy_iff.mpr ⟨hj, rest, ?_⟩)
    rw [← List.mem_singleton.mp hmem]
    exact heq

/-- What starts with an alternative of `j` starts with what that starts with, or `j`
vanishes. -/
theorem Rewrites.headClear_replace (hr : Rewrites g r helper)
    (hrest : g.Traced helper key (j :: rest)) (hf : g.Traced helper j f) (hj : g.isKey j)
    (hne : j ≠ .epsilon) (h : g.HeadClear j replaced f) :
    g.HeadClear key replaced ((f ++ (helper j).toList) ++ rest) := by
  intro s v heq hs
  have hlead : TransGen g.Exposes key j := (hrest.exposes (u := []) rfl hj (.refl [])).1
  cases f with
  | cons t f =>
    obtain ⟨rfl, _⟩ := List.cons_eq_cons.mp heq
    exact (h t f rfl hs).imp_right fun hhidden => hhidden.head hlead.to_reflTransGen
  | nil =>
    rw [List.nil_append] at heq
    cases hh : helper j with
    | some new =>
      rw [hh] at heq
      obtain ⟨rfl, _⟩ := List.cons_eq_cons.mp heq
      exact absurd (mem_symbols_of_isKey hs) (hr.not_mem_symbols hh)
    | none =>
      rw [hh, Option.toList_none, List.nil_append] at heq
      have hbare : g.Derives (g.bare [j]) [] := by
        rw [bare_of_isKey hj hne]
        exact hf.derives
      exact Or.inr ((hrest.exposes (u := [j]) (by rw [heq]; rfl) hs hbare).2 (List.cons_ne_nil j []))

theorem Rewrites.headClear_expanded (hr : Rewrites g r helper) (hepsilon : ¬ g.isKey .epsilon)
    (hkey : g.isKey key) (he : e ∈ g.expanded r key) :
    g.HeadClear key (g.keysBefore key) e := by
  have hne : ∀ {key j : Symbol}, j ∈ g.keysBefore key → j ≠ .epsilon := fun hj heq =>
    hepsilon (heq ▸ isKey_of_mem_keysBefore hj)
  have hmotive : ExpansionMotive g r helper fun key replaced e =>
      g.Traced helper key e ∧ g.HeadClear key replaced e := by
    refine ⟨fun he => ⟨hr.traced_original he, fun s rest _ _ => Or.inl (by simp)⟩, ?_, ?_⟩
    · intro key j replaced e hj h hled
      exact ⟨h.1, h.2.keep (hne hj) hled⟩
    · intro key j rest f hj hrest hall hf hled
      have hf := hall f hf
      have hjkey : g.isKey j := isKey_of_mem_keysBefore hj
      have htraced : g.Traced helper key ((f ++ (helper j).toList) ++ rest) :=
        hrest.1.replace (hr.traced_helper hf.1) hjkey (hne hj)
      have hclear := hr.headClear_replace hrest.1 hf.1 hjkey (hne hj) (hf.2.keep (hne hj) hled)
      exact ⟨hr.traced_join hepsilon htraced, hclear.join htraced hepsilon⟩
  exact (hr.expanded_induction hmotive hkey e he).2

/-! ## Helpers and empty-string symbols in expanded alternatives -/

/-- A helper in an expanded alternative belongs to an earlier key. -/
theorem Rewrites.owner_mem_keysBefore (hr : Rewrites g r helper) (hkey : g.isKey key)
    (he : e ∈ g.expanded r key) {owner : Symbol} (hh : helper owner = some h) (hmem : h ∈ e) :
    owner ∈ g.keysBefore key := by
  have hmotive : ExpansionMotive g r helper fun key _ e =>
      ∀ owner h, helper owner = some h → h ∈ e → g.isKey key → owner ∈ g.keysBefore key := by
    refine ⟨?_, fun _ ih _ => ih, ?_⟩
    · intro key e he owner h hh hmem _
      exact absurd (mem_symbols_of_mem_alternatives he hmem) (hr.not_mem_symbols hh)
    · intro key j rest f hj hrest hall hf _ owner h hh hmem hkey
      have hcases : h ∈ f ∨ helper j = some h ∨ h ∈ rest := by
        have hbare : h ∈ withoutEpsilon (Expression.join (f ++ (helper j).toList) rest) :=
          mem_withoutEpsilon.mpr ⟨hmem, hr.helper_ne_epsilon hh⟩
        rw [withoutEpsilon_join, ← withoutEpsilon_append, mem_withoutEpsilon, List.mem_append,
          List.mem_append, Option.mem_toList, or_assoc] at hbare
        exact hbare.1
      rcases hcases with hmem | hown | hmem
      · exact mem_keysBefore_trans hkey hj (hall f hf owner h hh hmem (isKey_of_mem_keysBefore hj))
      · rw [hr.helper_injective hh hown]
        exact hj
      · exact hrest owner h hh (List.mem_cons_of_mem j hmem) hkey
  exact hr.expanded_induction hmotive hkey e he owner h hh hmem hkey

/-- Replacements leave no empty-string symbol among others. -/
theorem Rewrites.mem_alternatives_of_epsilon_mem (hr : Rewrites g r helper) (hkey : g.isKey key)
    (he : e ∈ g.expanded r key) (hmem : Symbol.epsilon ∈ e) :
    e ∈ g.alternatives key ∨ e = Expression.epsilon := by
  have hmotive : ExpansionMotive g r helper fun key _ e =>
      Symbol.epsilon ∈ e → e ∈ g.alternatives key ∨ e = Expression.epsilon := by
    refine ⟨fun he _ => Or.inl he, fun _ ih _ => ih, ?_⟩
    intro key j rest f _ _ _ _ _ hmem
    rcases join_eq (f ++ (helper j).toList) rest with heq | ⟨_, heq⟩
    · rw [heq] at hmem
      exact absurd rfl (mem_withoutEpsilon.mp hmem).2
    · exact Or.inr heq
  exact hr.expanded_induction hmotive hkey e he hmem

/-! ## Steps of the rewritten grammar -/

theorem Rewrites.traced_alternatives (hr : Rewrites g r helper) (hepsilon : ¬ g.isKey .epsilon)
    (hkey : g.isKey key) (he : e ∈ r.alternatives key) : g.Traced helper key e := by
  obtain ⟨f, hf, _, rfl⟩ := (hr.mem_alternatives hkey).mp he
  have ht := hr.traced_helper (hr.traced_expanded hepsilon hkey hf)
  cases hh : helper key with
  | none =>
    rw [hh, Option.toList_none, List.append_nil] at ht
    exact ht
  | some new =>
    rw [hh, Option.toList_some] at ht
    exact hr.traced_join hepsilon ht

theorem Rewrites.headClear_alternatives (hr : Rewrites g r helper) (hepsilon : ¬ g.isKey .epsilon)
    (hkey : g.isKey key) (he : e ∈ r.alternatives key) :
    g.HeadClear key (g.keysBefore key ++ [key]) e := by
  obtain ⟨f, hf, hled, rfl⟩ := (hr.mem_alternatives hkey).mp he
  have hne : key ≠ .epsilon := fun heq => hepsilon (heq ▸ hkey)
  have hclear := (hr.headClear_expanded hepsilon hkey hf).keep hne hled
  cases hh : helper key with
  | none => exact hclear
  | some new =>
    have ht := hr.traced_helper (hr.traced_expanded hepsilon hkey hf)
    rw [hh, Option.toList_some] at ht
    refine HeadClear.join ht ?_ hepsilon
    intro s rest heq hs
    cases f with
    | nil =>
      obtain ⟨rfl, _⟩ := List.cons_eq_cons.mp heq
      exact absurd (mem_symbols_of_isKey hs) (hr.not_mem_symbols hh)
    | cons t f =>
      obtain ⟨rfl, _⟩ := List.cons_eq_cons.mp heq
      exact hclear t f rfl hs

/-- A key leads to later keys, or the step is a hidden chain. -/
theorem Rewrites.leadsTo_key (hr : Rewrites g r helper) (hepsilon : ¬ g.isKey .epsilon)
    (hkey : g.isKey key) (hs : g.isKey s) (h : r.LeadsTo key s) :
    ReflTransGen g.Exposes key s ∧ (key ∈ g.keysBefore s ∨ g.HiddenChain key s) := by
  obtain ⟨_, rest, hmem⟩ := leadsTo_iff.mp h
  have ht := hr.traced_alternatives hepsilon hkey hmem
  refine ⟨(ht.exposes (u := []) rfl hs (.refl [])).1.to_reflTransGen, ?_⟩
  refine (hr.headClear_alternatives hepsilon hkey hmem s rest rfl hs).imp_left fun hnot => ?_
  rw [List.mem_append, not_or, List.mem_singleton] at hnot
  exact mem_keysBefore_of_not_mem hkey hs hnot.2 hnot.1

/-- A key leads to helpers of keys that derive the empty string. -/
theorem Rewrites.leadsTo_helper (hr : Rewrites g r helper) (hepsilon : ¬ g.isKey .epsilon)
    (hkey : g.isKey key) {owner : Symbol} (hh : helper owner = some h) (hlead : r.LeadsTo key h) :
    ReflTransGen g.Exposes key owner ∧ g.Derives [owner] [] := by
  obtain ⟨_, rest, hmem⟩ := leadsTo_iff.mp hlead
  have ht := hr.traced_alternatives hepsilon hkey hmem
  exact ⟨ht.exposes_owner (u := []) rfl hh (.refl []), ht.before_helper (u := []) rfl hh⟩

/-- No alternative of a key is the key with nothing but empty-string symbols behind it. -/
def Unpadded (g : Grammar) : Prop :=
  ∀ key tail, key :: tail ∈ g.alternatives key → tail ≠ [] → ∃ s ∈ tail, s ≠ .epsilon

/-- A helper leads to what stands behind its owner. -/
theorem Rewrites.exists_tail_of_leadsTo (hr : Rewrites g r helper) (hepsilon : ¬ g.isKey .epsilon)
    (hpadded : g.Unpadded) (hh : helper key = some h) (hlead : r.LeadsTo h s) :
    ∃ u v, key :: (u ++ s :: v) ∈ g.expanded r key ∧ g.bare u = [] := by
  obtain ⟨hs, rest, hmem⟩ := leadsTo_iff.mp hlead
  have hkey := hr.isKey_of_helper hh
  have hrepsilon : ¬ r.isKey .epsilon := by
    rw [hr.isKey_iff, not_or, not_exists]
    exact ⟨hepsilon, fun owner howner => hr.helper_ne_epsilon howner rfl⟩
  rcases (hr.mem_alternatives_helper hh).mp hmem with ⟨_, tail, htail, hexpanded, heq⟩ | heq
  · rcases join_eq tail [h] with hjoin | ⟨hnil, _⟩
    · rw [heq] at hjoin
      obtain ⟨u, v, hsplit, hu, _⟩ := withoutEpsilon_eq_append_cons (u := []) hjoin.symm
      have hbare : g.bare u = [] := by rw [← bare_withoutEpsilon, hu, bare_nil]
      rcases append_eq_append_cons hsplit with ⟨mid, rfl, _⟩ | ⟨mid, rfl, _⟩
      · exact ⟨u, mid, hexpanded, hbare⟩
      · -- Nothing but empty-string symbols stands behind the owner.
        have hall : ∀ t ∈ tail, t = .epsilon := by
          rw [withoutEpsilon_append, List.append_eq_nil_iff] at hu
          exact withoutEpsilon_eq_nil_iff.mp hu.1
        obtain ⟨t, ht⟩ := List.exists_mem_of_ne_nil tail htail
        have hmem : Symbol.epsilon ∈ key :: tail := List.mem_cons_of_mem key (hall t ht ▸ ht)
        rcases hr.mem_alternatives_of_epsilon_mem hkey hexpanded hmem with horiginal | heq
        · obtain ⟨x, hx, hne⟩ := hpadded key tail horiginal htail
          exact absurd (hall x hx) hne
        · exact absurd (List.cons_eq_cons.mp heq).2 htail
    · have hnone : h = .epsilon := by
        have hall := withoutEpsilon_eq_nil_iff.mp hnil
        exact hall h (List.mem_append_right tail (List.mem_singleton_self h))
      exact absurd hnone (hr.helper_ne_epsilon hh)
  · rw [(List.cons_eq_cons.mp heq).1] at hs
    exact absurd hs hrepsilon

theorem Rewrites.helper_leadsTo_key (hr : Rewrites g r helper) (hepsilon : ¬ g.isKey .epsilon)
    (hpadded : g.Unpadded) (hh : helper key = some h) (hvanishes : g.Derives [key] [])
    (hs : g.isKey s) (hlead : r.LeadsTo h s) : g.HiddenChain key s := by
  have hkey := hr.isKey_of_helper hh
  obtain ⟨u, v, hmem, hu⟩ := hr.exists_tail_of_leadsTo hepsilon hpadded hh hlead
  have ht := hr.traced_expanded hepsilon hkey hmem
  have hbare : g.Derives (g.bare (key :: u)) [] := by
    rw [bare_cons, hu, bare_of_isKey hkey fun heq => hepsilon (heq ▸ hkey)]
    exact hvanishes
  exact (ht.exposes (u := key :: u) rfl hs hbare).2 (List.cons_ne_nil key u)

/-- Helpers lead to helpers of earlier keys. -/
theorem Rewrites.helper_leadsTo_helper (hr : Rewrites g r helper) (hepsilon : ¬ g.isKey .epsilon)
    (hpadded : g.Unpadded) (hh : helper key = some h) {owner k : Symbol}
    (hk : helper owner = some k) (hlead : r.LeadsTo h k) :
    owner ∈ g.keysBefore key ∧
      (g.Derives [key] [] → ReflTransGen g.Exposes key owner ∧ g.Derives [owner] []) := by
  have hkey := hr.isKey_of_helper hh
  obtain ⟨u, v, hmem, hu⟩ := hr.exists_tail_of_leadsTo hepsilon hpadded hh hlead
  have ht := hr.traced_expanded hepsilon hkey hmem
  have hbare : g.bare (key :: u) = [key] := by
    rw [bare_cons, hu, bare_of_isKey hkey fun heq => hepsilon (heq ▸ hkey), List.append_nil]
  have howner := ht.before_helper (u := key :: u) rfl hk
  rw [hbare] at howner
  refine ⟨hr.owner_mem_keysBefore hkey hmem hk (by simp), fun hvanishes => ?_⟩
  exact ⟨ht.exposes_owner (u := key :: u) rfl hk (hbare ▸ hvanishes), howner.trans hvanishes⟩

/-! ## Runs of such steps -/

/-- What a key has led to in one or more steps. -/
structure Reached (g : Grammar) (helper : Symbol → Option Symbol) (key s : Symbol) : Prop where
  of_isKey : g.isKey s →
    ReflTransGen g.Exposes key s ∧ (key ∈ g.keysBefore s ∨ g.HiddenChain key s)
  of_helper {owner : Symbol} : helper owner = some s →
    ReflTransGen g.Exposes key owner ∧ g.Derives [owner] []

theorem Rewrites.reached_step (hr : Rewrites g r helper) (hepsilon : ¬ g.isKey .epsilon)
    (hpadded : g.Unpadded) {t : Symbol} (hs : g.Reached helper key s) (hlead : r.LeadsTo s t) :
    g.Reached helper key t := by
  have hsource : r.isKey s := by
    obtain ⟨_, rest, hmem⟩ := leadsTo_iff.mp hlead
    exact isKey_of_mem_alternatives hmem
  rcases (hr.isKey_iff s).mp hsource with hskey | ⟨owner, howner⟩
  · obtain ⟨hchain, horder⟩ := hs.of_isKey hskey
    constructor
    · intro ht
      obtain ⟨hstep, hnext⟩ := hr.leadsTo_key hepsilon hskey ht hlead
      refine ⟨hchain.trans hstep, ?_⟩
      rcases hnext with hnext | hnext
      · rcases horder with horder | horder
        · exact Or.inl (mem_keysBefore_trans ht hnext horder)
        · exact Or.inr (horder.tail hstep)
      · exact Or.inr (hnext.head hchain)
    · intro owner howner
      obtain ⟨hstep, hvanishes⟩ := hr.leadsTo_helper hepsilon hskey howner hlead
      exact ⟨hchain.trans hstep, hvanishes⟩
  · obtain ⟨hchain, hvanishes⟩ := hs.of_helper howner
    constructor
    · intro ht
      have hhidden := hr.helper_leadsTo_key hepsilon hpadded howner hvanishes ht hlead
      exact ⟨hchain.trans hhidden.transGen.to_reflTransGen, Or.inr (hhidden.head hchain)⟩
    · intro owner' howner'
      obtain ⟨hstep, hvanishes'⟩ :=
        (hr.helper_leadsTo_helper hepsilon hpadded howner howner' hlead).2 hvanishes
      exact ⟨hchain.trans hstep, hvanishes'⟩

theorem Rewrites.reached (hr : Rewrites g r helper) (hepsilon : ¬ g.isKey .epsilon)
    (hpadded : g.Unpadded) (hkey : g.isKey key) (hlead : TransGen r.LeadsTo key s) :
    g.Reached helper key s := by
  induction hlead with
  | single hlead =>
    exact ⟨fun hs => hr.leadsTo_key hepsilon hkey hs hlead,
      fun howner => hr.leadsTo_helper hepsilon hkey howner hlead⟩
  | tail _ hlead ih => exact hr.reached_step hepsilon hpadded ih hlead

end Grammar
end LL1
