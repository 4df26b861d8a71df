import LL1.Proofs.Analysis.Saturation

/-!
# What FOLLOW sets hold

The rounds end with sets that are closed: what stands behind a key in an alternative
puts its FIRST symbols into the set of the key, and if it vanishes, the symbols of the
left side's set. Closed sets hold whatever can follow a key in a form that is derived
from one symbol. This passes on from step to step, since a step replaces a key by an
alternative and puts what followed the key behind the end of that.
-/

namespace LL1

open Grammar

variable {g : Grammar} {cache : FirstCache}

/-- What the forms of some symbols of alternatives start with occurs there, too. -/
theorem Grammar.mem_occurring_of_starts {v : List Symbol} {a : Symbol}
    (hv : ∀ t ∈ v, t ∈ g.occurring) (hne : a ≠ .epsilon) (h : g.Starts v a) : a ∈ g.occurring := by
  obtain ⟨_, w, hw⟩ := (starts_iff_of_ne hne).mp h
  rcases mem_occurring_of_derives hw List.mem_cons_self with hmem | hmem
  · exact hv a (Expression.mem_withoutEpsilon.mp hmem).1
  · exact hmem

theorem FirstCache.Complete.within (h : cache.Complete g) : cache.Within g := by
  intro s hs a ha
  refine or_iff_not_imp_left.mpr fun hne => ?_
  have hstarts := (h.isFirst_ofSymbol.mem_iff a).mp ha
  exact mem_occurring_of_starts (List.forall_mem_singleton.mpr hs) hne hstarts

namespace Follow

variable {f f' : FollowSets} {left s t a : Symbol} {v : List Symbol} {sweep : Sweep}

/-! ## One alternative -/

/-- What a sweep has done when it has passed the symbols `v` at the end of an
alternative of `left`. -/
structure Swept (g : Grammar) (left : Symbol) (f : FollowSets) (v : List Symbol)
    (sweep : Sweep) : Prop where
  ranged : Ranged g sweep.follow
  grows : Grows f sweep.follow
  mem_first (a : Symbol) : a ∈ sweep.first ↔ a ≠ .epsilon ∧ g.Starts v a
  nullable_iff : sweep.nullable ↔ g.Vanishes v
  first_mem {s a : Symbol} {u w : List Symbol} : v = u ++ s :: w → g.isKey s → a ≠ .epsilon →
    g.Starts w a → a ∈ ofKey sweep.follow s
  left_mem {s a : Symbol} {u w : List Symbol} : v = u ++ s :: w → g.isKey s → g.Vanishes w →
    a ∈ ofKey f left → a ∈ ofKey sweep.follow s

theorem swept_nil (hf : Ranged g f) : Swept g left f [] ⟨f, ∅, true⟩ where
  ranged := hf
  grows := .refl f
  mem_first a := by
    rw [starts_nil_iff]
    exact iff_of_false OrderedSet.not_mem_empty fun h => h.1 h.2
  nullable_iff := iff_of_true rfl vanishes_nil
  first_mem h := by simp at h
  left_mem h := by simp at h

theorem Swept.within (h : Swept g left f v sweep) (hv : ∀ t ∈ v, t ∈ g.occurring) :
    sweep.Within g := by
  refine ⟨h.ranged, fun ha => ?_⟩
  obtain ⟨hne, hstarts⟩ := (h.mem_first _).mp ha
  exact mem_occurring_of_starts hv hne hstarts

/-- The set of a key after a sweep over it, next to the one before. -/
theorem Swept.follow_step (h : Swept g left f v sweep) (hs : g.isKey s)
    (hv : ∀ t ∈ v, t ∈ g.occurring) :
    let follow := (Sweep.step g cache left s sweep).follow
    Ranged g follow ∧ Grows sweep.follow follow ∧
      (∀ a, a ≠ .epsilon → g.Starts v a → a ∈ ofKey follow s) ∧
      (g.Vanishes v → ∀ a ∈ ofKey f left, a ∈ ofKey follow s) := by
  obtain ⟨hranged, hgrows⟩ := (h.within hv).extend hs
  have hfirst : ∀ a, a ≠ .epsilon → g.Starts v a →
      a ∈ ofKey (Follow.extend sweep.follow s sweep.first.toList) s := by
    intro a ha hstarts
    refine mem_ofKey_extend.mpr (Or.inr ⟨rfl, ?_⟩)
    exact OrderedSet.mem_toList.mpr ((h.mem_first a).mpr ⟨ha, hstarts⟩)
  simp only [Sweep.step, if_pos hs]
  by_cases hleft : (sweep.nullable && decide (s ≠ left)) = true
  · rw [if_pos hleft]
    have hmem : s ∈ Follow.extend sweep.follow s sweep.first.toList :=
      (hranged.mem_iff s).mpr (Or.inl hs)
    have hgrows' := grows_extend hmem
      (ofKey (Follow.extend sweep.follow s sweep.first.toList) left).toList
    refine ⟨hranged.extend hmem fun a ha => ?_, hgrows.trans hgrows', fun a ha hstarts => ?_,
      fun _ a ha => ?_⟩
    · exact hranged.mem_cases (OrderedSet.mem_toList.mp ha)
    · exact hgrows'.mem (hfirst a ha hstarts)
    · refine mem_ofKey_extend.mpr (Or.inr ⟨rfl, OrderedSet.mem_toList.mpr ?_⟩)
      exact hgrows.mem (h.grows.mem ha)
  · rw [if_neg hleft]
    refine ⟨hranged, hgrows, hfirst, fun hvanishes a ha => ?_⟩
    have hsame : s = left := by
      by_contra hne
      refine hleft ?_
      rw [Bool.and_eq_true]
      exact ⟨h.nullable_iff.mpr hvanishes, decide_eq_true hne⟩
    rw [hsame] at hgrows ⊢
    exact hgrows.mem (h.grows.mem ha)

/-- FIRST of what is behind the next point. -/
theorem Swept.mem_first_step (h : Swept g left f v sweep) (hcomplete : cache.Complete g) :
    a ∈ (Sweep.step g cache left s sweep).first ↔ a ≠ .epsilon ∧ g.Starts (s :: v) a := by
  have hfirst : g.IsFirst [s] (cache.ofSymbol g s) := hcomplete.isFirst_ofSymbol
  show a ∈ (if (cache.ofSymbol g s).nullable then
    sweep.first.insertMany (cache.ofSymbol g s).nonEpsilon else cache.ofSymbol g s) ↔ _
  by_cases hnull : (cache.ofSymbol g s).nullable
  · have hvanishes : g.Vanishes [s] := hfirst.nullable_iff.mp hnull
    rw [if_pos hnull, OrderedSet.mem_insertMany, h.mem_first, hfirst.mem_nonEpsilon,
      starts_cons_iff_of_vanishes (e := v) hvanishes, ← and_or_left, or_comm]
    refine and_congr_right fun ha => ?_
    rw [and_iff_right ha]
  · have hvanishes : ¬ g.Vanishes [s] := fun hs => hnull (hfirst.nullable_iff.mpr hs)
    rw [if_neg hnull, hfirst.mem_iff, starts_cons_iff_of_not_vanishes (e := v) hvanishes,
      ← and_assoc, and_self]
    refine (and_iff_right_of_imp fun hstarts ha => hvanishes ?_).symm
    rw [ha] at hstarts
    exact starts_epsilon_iff.mp hstarts

theorem Swept.nullable_step (h : Swept g left f v sweep) (hcomplete : cache.Complete g) :
    (Sweep.step g cache left s sweep).nullable ↔ g.Vanishes (s :: v) := by
  have hfirst : g.IsFirst [s] (cache.ofSymbol g s) := hcomplete.isFirst_ofSymbol
  show (sweep.nullable && (cache.ofSymbol g s).nullable) = true ↔ _
  rw [Bool.and_eq_true, h.nullable_iff, hfirst.nullable_iff, and_comm, ← vanishes_cons (e := v)]

theorem Swept.step (h : Swept g left f v sweep) (hcomplete : cache.Complete g)
    (hv : ∀ t ∈ v, t ∈ g.occurring) :
    Swept g left f (s :: v) (Sweep.step g cache left s sweep) where
  ranged := (h.within hv).grows_step.1
  grows := h.grows.trans (h.within hv).grows_step.2
  mem_first _ := h.mem_first_step hcomplete
  nullable_iff := h.nullable_step hcomplete
  first_mem {t a u w} heq ht ha hstarts := by
    cases u with
    | nil =>
      obtain ⟨rfl, rfl⟩ := List.cons_eq_cons.mp heq
      exact (h.follow_step ht hv).2.2.1 a ha hstarts
    | cons x u =>
      obtain ⟨rfl, rfl⟩ := List.cons_eq_cons.mp heq
      exact (h.within hv).grows_step.2.mem (h.first_mem rfl ht ha hstarts)
  left_mem {t a u w} heq ht hvanishes ha := by
    cases u with
    | nil =>
      obtain ⟨rfl, rfl⟩ := List.cons_eq_cons.mp heq
      exact (h.follow_step ht hv).2.2.2 hvanishes a ha
    | cons x u =>
      obtain ⟨rfl, rfl⟩ := List.cons_eq_cons.mp heq
      exact (h.within hv).grows_step.2.mem (h.left_mem rfl ht hvanishes ha)

theorem swept_foldr (hcomplete : cache.Complete g) (hf : Ranged g f) (v : List Symbol)
    (hv : ∀ t ∈ v, t ∈ g.occurring) :
    Swept g left f v (v.foldr (Sweep.step g cache left) ⟨f, ∅, true⟩) := by
  induction v with
  | nil => exact swept_nil hf
  | cons s v ih =>
    rw [List.forall_mem_cons] at hv
    exact (ih hv.2).step hcomplete hv.2

/-! ## One round -/

theorem swept_ofAlternative (hcomplete : cache.Complete g) (hf : Ranged g f) {rule : Rule}
    (hrule : rule ∈ g.ruleList) :
    Swept g rule.left f rule.right
      (rule.right.foldr (Sweep.step g cache rule.left) ⟨f, ∅, true⟩) :=
  swept_foldr hcomplete hf rule.right fun _ ht => mem_occurring (mem_ruleList.mp hrule) ht

/-- If a round changes nothing, neither does any of its alternatives. -/
theorem swept_of_round_eq (hcomplete : cache.Complete g) (hf : Ranged g f)
    (hfixed : round g cache f = f) {rule : Rule} (hrule : rule ∈ g.ruleList) :
    ∃ f' sweep, Grows f f' ∧ Grows sweep.follow f ∧ Swept g rule.left f' rule.right sweep := by
  obtain ⟨before, after, hsplit⟩ := List.append_of_mem hrule
  have hbefore : ∀ r ∈ before, r ∈ g.ruleList := by
    intro r hr
    rw [hsplit]
    exact List.mem_append_left _ hr
  have hafter : ∀ r ∈ after, r ∈ g.ruleList := by
    intro r hr
    rw [hsplit]
    exact List.mem_append_right _ (List.mem_cons_of_mem _ hr)
  obtain ⟨hgrows, hranged⟩ := grows_rules hcomplete.within hbefore hf
  have hswept := swept_ofAlternative hcomplete hranged hrule
  refine ⟨_, _, hgrows, ?_, hswept⟩
  have hround : after.foldl (ofAlternative g cache)
      (ofAlternative g cache (before.foldl (ofAlternative g cache) f) rule) = f := by
    unfold round at hfixed
    rwa [hsplit, List.foldl_append, List.foldl_cons] at hfixed
  generalize before.foldl (ofAlternative g cache) f = f' at hround hswept ⊢
  have hrest : Grows (ofAlternative g cache f' rule)
      (after.foldl (ofAlternative g cache) (ofAlternative g cache f' rule)) :=
    (grows_rules hcomplete.within hafter hswept.ranged).1
  rw [hround] at hrest
  exact hrest

/-! ## Closed sets -/

/-- The sets hold what the alternatives require. -/
structure Closed (g : Grammar) (f : FollowSets) : Prop where
  endMark_mem : .endMark ∈ ofKey f g.start
  first_mem {key s a : Symbol} {u w : List Symbol} : u ++ s :: w ∈ g.alternatives key →
    g.isKey s → a ≠ .epsilon → g.Starts w a → a ∈ ofKey f s
  left_mem {key s a : Symbol} {u w : List Symbol} : u ++ s :: w ∈ g.alternatives key →
    g.isKey s → g.Vanishes w → a ∈ ofKey f key → a ∈ ofKey f s

theorem closed_of_round_eq (hcomplete : cache.Complete g) (hf : Ranged g f)
    (hfixed : round g cache f = f) (hstart : .endMark ∈ ofKey f g.start) : Closed g f where
  endMark_mem := hstart
  first_mem {key s a u w} hmem hs ha hstarts := by
    have hrule : ⟨key, u ++ s :: w⟩ ∈ g.ruleList := mem_ruleList.mpr hmem
    obtain ⟨_, _, _, hgrows, hswept⟩ := swept_of_round_eq hcomplete hf hfixed hrule
    exact hgrows.mem (hswept.first_mem rfl hs ha hstarts)
  left_mem {key s a u w} hmem hs hvanishes ha := by
    have hrule : ⟨key, u ++ s :: w⟩ ∈ g.ruleList := mem_ruleList.mpr hmem
    obtain ⟨_, _, hgrows, hgrows', hswept⟩ := swept_of_round_eq hcomplete hf hfixed hrule
    exact hgrows'.mem (hswept.left_mem rfl hs hvanishes (hgrows.mem ha))

theorem ranged_followSets (hcomplete : cache.Complete g) :
    Ranged g (g.followSets cache).follow :=
  settle_induction (P := Ranged g) (fun _ hf => (grows_round hcomplete.within hf).2) (roundLimit g)
    ranged_initial

/-- The rounds end with closed sets. -/
theorem closed_followSets (hcomplete : cache.Complete g) :
    Closed g (g.followSets cache).follow := by
  obtain ⟨hsettles, _⟩ := settles_followSets hcomplete.within
  obtain ⟨hfixed, hgrows, hranged⟩ := hsettles.round_eq hcomplete.within ranged_initial
  refine closed_of_round_eq hcomplete hranged hfixed (hgrows.mem ?_)
  exact mem_ofKey_initial.mpr ⟨rfl, rfl⟩

/-! ## Forms that are derived -/

/-- The set of every key in a form holds what can follow the key there. At the end of the
form that is what can follow `origin`. -/
def CoversFrom (g : Grammar) (f : FollowSets) (origin : Symbol) (form : List Symbol) : Prop :=
  ∀ u s w, form = u ++ s :: w → g.isKey s →
    (∀ a, a ≠ .epsilon → g.Starts w a → a ∈ ofKey f s) ∧
      (g.Vanishes w → ∀ a ∈ ofKey f origin, a ∈ ofKey f s)

theorem coversFrom_self (g : Grammar) (f : FollowSets) (origin : Symbol) :
    CoversFrom g f origin [origin] := by
  intro u s w heq hs
  obtain ⟨rfl, hrest⟩ := List.append_eq_singleton_iff.mp heq.symm |>.resolve_right (by simp)
  obtain ⟨rfl, rfl⟩ := List.cons_eq_cons.mp hrest
  exact ⟨fun a ha hstarts => absurd (starts_nil_iff.mp hstarts) ha, fun _ _ h => h⟩

variable {origin : Symbol} {form form' : List Symbol}

theorem Closed.coversFrom_step (h : Closed g f) (hepsilon : ¬ g.isKey .epsilon)
    (hstep : g.Step form form') (hform : CoversFrom g f origin form) :
    CoversFrom g f origin form' := by
  intro u s w heq hs
  obtain @⟨key, e, before, after, he⟩ := hstep
  rcases append_eq_append_cons heq with ⟨mid, rfl, rfl⟩ | ⟨mid, rfl, hrest⟩
  · -- the key that is replaced stands behind `s`
    obtain ⟨hfirst, hend⟩ := hform u s (mid ++ key :: after) (by simp) hs
    have hderives := derives_withoutEpsilon_of_step hepsilon (Step.replace mid after he)
    exact ⟨fun a ha hstarts => hfirst a ha (hstarts.of_derives hderives),
      fun hvanishes => hend (hderives.trans hvanishes)⟩
  · rcases append_eq_append_cons hrest with ⟨rest, hright, rfl⟩ | ⟨rest, rfl, rfl⟩
    · -- `s` comes from the alternative, so what followed the key follows the rest of it
      obtain ⟨u', w', rfl, _, rfl⟩ := Expression.withoutEpsilon_eq_append_cons hright
      obtain ⟨hfirst, hend⟩ := hform before key after rfl (isKey_of_mem_alternatives he)
      refine ⟨fun a ha hstarts => ?_, fun hvanishes a ha => ?_⟩
      · rw [starts_append_iff ha, starts_withoutEpsilon_iff, vanishes_withoutEpsilon_iff] at hstarts
        rcases hstarts with hstarts | ⟨hvanishes, hstarts⟩
        · exact h.first_mem he hs ha hstarts
        · exact h.left_mem he hs hvanishes (hfirst a ha hstarts)
      · rw [vanishes_append, vanishes_withoutEpsilon_iff] at hvanishes
        exact h.left_mem he hs hvanishes.1 (hend hvanishes.2 a ha)
    · exact hform (before ++ key :: rest) s w (by simp) hs

theorem Closed.coversFrom_of_derives (h : Closed g f) (hepsilon : ¬ g.isKey .epsilon)
    (hderives : g.Derives [origin] form) : CoversFrom g f origin form := by
  induction hderives with
  | refl => exact coversFrom_self g f origin
  | tail _ hstep ih => exact h.coversFrom_step hepsilon hstep ih

/-- The set of every key in a form holds what can follow the key there. -/
def Covers (g : Grammar) (f : FollowSets) (form : List Symbol) : Prop :=
  ∀ u s w, form = u ++ s :: w → g.isKey s →
    (∀ a, a ≠ .epsilon → g.Starts w a → a ∈ ofKey f s) ∧
      (g.Vanishes w → .endMark ∈ ofKey f s)

theorem Closed.covers_of_derives (h : Closed g f) (hepsilon : ¬ g.isKey .epsilon)
    (hderives : g.Derives [g.start] form) : Covers g f form := by
  intro u s w heq hs
  obtain ⟨hfirst, hend⟩ := h.coversFrom_of_derives hepsilon hderives u s w heq hs
  exact ⟨hfirst, fun hvanishes => hend hvanishes .endMark h.endMark_mem⟩

end Follow
end LL1
