import LL1.Proofs.LeftRecursion.EpsilonFree

/-!
# Hollow keys

Which keys become hollow can be told from the original grammar without empty
alternatives. Every expanded alternative that starts with a key comes from a walk along
first symbols through keys that are not treated later. A key has a helper if it lies on
such a walk back to itself and one of the alternatives on the way is more than its first
symbol. If all alternatives on a walk are single symbols, what is left behind the last
of them are the helpers of the keys that the walk passes.

A key is therefore hollow exactly if single symbols lead from it to itself through an
earlier key that has a helper.
-/

namespace LL1
namespace Grammar

open Relation Expression Elimination

variable {g r : Grammar} {helper : Symbol → Option Symbol} {key j s t z : Symbol}
  {e f rest tail : Expression}

/-! ## Walks along first symbols -/

/-- One step along a first symbol from a key that is not treated after `key`, in an
alternative of which `Rest` holds behind that symbol. -/
def StepUpTo (g : Grammar) (key : Symbol) (Rest : Expression → Prop) (s t : Symbol) : Prop :=
  (s ∈ g.keysBefore key ∨ s = key) ∧ g.isKey t ∧ ∃ rest, Rest rest ∧ t :: rest ∈ g.alternatives s

/-- A walk through keys that are not treated after `key`. -/
def WalkUpTo (g : Grammar) (key : Symbol) : Symbol → Symbol → Prop :=
  ReflTransGen (g.StepUpTo key fun _ => True)

/-- A walk of which every alternative is a single symbol. -/
def UnitWalkUpTo (g : Grammar) (key : Symbol) : Symbol → Symbol → Prop :=
  ReflTransGen (g.StepUpTo key (· = []))

/-- A walk of which some alternative is more than its first symbol. -/
def LongWalkUpTo (g : Grammar) (key s t : Symbol) : Prop :=
  ∃ a b, g.WalkUpTo key s a ∧ g.StepUpTo key (· ≠ []) a b ∧ g.WalkUpTo key b t

/-- Two keys derive each other alone, through keys that are not treated after the later
one, and the earlier one leads back to itself with something behind it, through keys that
are not treated after it. -/
def Collapses (g : Grammar) : Prop :=
  ∃ key, ∃ j ∈ g.keysBefore key,
    g.UnitWalkUpTo key key j ∧ g.UnitWalkUpTo key j key ∧ g.LongWalkUpTo j j j

theorem StepUpTo.mono {Rest Rest' : Expression → Prop} (hkey : g.isKey key)
    (hj : j ∈ g.keysBefore key) (hrest : ∀ rest, Rest rest → Rest' rest)
    (h : g.StepUpTo j Rest s t) : g.StepUpTo key Rest' s t := by
  obtain ⟨hs, ht, rest, hholds, hmem⟩ := h
  refine ⟨Or.inl ?_, ht, rest, hrest rest hholds, hmem⟩
  rcases hs with hs | rfl
  · exact mem_keysBefore_trans hkey hj hs
  · exact hj

theorem WalkUpTo.mono (hkey : g.isKey key) (hj : j ∈ g.keysBefore key) (h : g.WalkUpTo j s t) :
    g.WalkUpTo key s t :=
  ReflTransGen.mono (fun _ _ hstep => StepUpTo.mono hkey hj (fun _ h => h) hstep) _ _ h

theorem UnitWalkUpTo.mono (hkey : g.isKey key) (hj : j ∈ g.keysBefore key)
    (h : g.UnitWalkUpTo j s t) : g.UnitWalkUpTo key s t :=
  ReflTransGen.mono (fun _ _ hstep => StepUpTo.mono hkey hj (fun _ h => h) hstep) _ _ h

theorem LongWalkUpTo.mono (hkey : g.isKey key) (hj : j ∈ g.keysBefore key)
    (h : g.LongWalkUpTo j s t) : g.LongWalkUpTo key s t := by
  obtain ⟨a, b, hsa, hab, hbt⟩ := h
  exact ⟨a, b, hsa.mono hkey hj, hab.mono hkey hj fun _ h => h, hbt.mono hkey hj⟩

theorem LongWalkUpTo.from_walk (hst : g.WalkUpTo key s t) (h : g.LongWalkUpTo key t z) :
    g.LongWalkUpTo key s z := by
  obtain ⟨a, b, hta, hab, hbz⟩ := h
  exact ⟨a, b, hst.trans hta, hab, hbz⟩

theorem LongWalkUpTo.to_walk (h : g.LongWalkUpTo key s t) (htz : g.WalkUpTo key t z) :
    g.LongWalkUpTo key s z := by
  obtain ⟨a, b, hsa, hab, hbt⟩ := h
  exact ⟨a, b, hsa, hab, hbt.trans htz⟩

/-! ## From expanded alternatives to walks -/

/-- How an alternative of a key that starts with a key has come about. -/
structure Walked (g : Grammar) (helper : Symbol → Option Symbol) (key s : Symbol)
    (tail : Expression) : Prop where
  walk : g.WalkUpTo key key s
  long : tail ≠ [] → g.LongWalkUpTo key key s
  unit : g.bare tail = [] → g.UnitWalkUpTo key key s
  through {owner h : Symbol} : g.bare tail = [] → h ∈ tail → helper owner = some h →
    g.UnitWalkUpTo key key owner ∧ g.UnitWalkUpTo key owner s

theorem Rewrites.walked_original (hfree : g.EpsilonFree) (hs : g.isKey s)
    (he : s :: tail ∈ g.alternatives key) : g.Walked helper key s tail := by
  have hnil : g.bare tail = [] → tail = [] := by
    intro h
    have hsymbols : ∀ t ∈ tail, t ∈ g.symbols := fun t ht =>
      mem_symbols_of_mem_alternatives he (List.mem_cons_of_mem s ht)
    rw [bare_of_forall_mem hsymbols, withoutEpsilon_of_not_mem] at h
    · exact h
    · exact fun ht => hfree.not_mem he (List.mem_cons_of_mem s ht)
  refine ⟨.single ⟨Or.inr rfl, hs, tail, trivial, he⟩, fun hne => ?_, fun h => ?_, fun h hmem _ => ?_⟩
  · exact ⟨key, s, .refl, ⟨Or.inr rfl, hs, tail, hne, he⟩, .refl⟩
  · exact .single ⟨Or.inr rfl, hs, tail, hnil h, he⟩
  · rw [hnil h] at hmem
    simp at hmem

/-- The walk of a replacement is put behind the walk to what it replaces. -/
theorem Walked.replace (hkey : g.isKey key) (hj : j ∈ g.keysBefore key)
    (hrest : g.Walked helper key j rest) (hf : g.Walked helper j s tail)
    (hinjective : ∀ {owner h}, helper owner = some h → helper j = some h → owner = j)
    (hlong : helper j ≠ none → g.LongWalkUpTo j j j) :
    g.Walked helper key s (tail ++ (helper j).toList ++ rest) := by
  have hwalk : g.WalkUpTo key j s := hf.walk.mono hkey hj
  refine ⟨hrest.walk.trans hwalk, fun hne => ?_, fun hbare => ?_, fun {owner h} hbare hmem hh => ?_⟩
  · by_cases htail : tail = []
    · by_cases hnone : helper j = none
      · have hne : rest ≠ [] := by simpa [htail, hnone] using hne
        exact (hrest.long hne).to_walk hwalk
      · exact (((hlong hnone).mono hkey hj).from_walk hrest.walk).to_walk hwalk
    · exact ((hf.long htail).mono hkey hj).from_walk hrest.walk
  · simp only [bare_append, List.append_eq_nil_iff] at hbare
    exact (hrest.unit hbare.2).trans ((hf.unit hbare.1.1).mono hkey hj)
  · simp only [bare_append, List.append_eq_nil_iff] at hbare
    have hunit : g.UnitWalkUpTo key j s := (hf.unit hbare.1.1).mono hkey hj
    rw [List.mem_append, List.mem_append, Option.mem_toList] at hmem
    rcases hmem with (hmem | hown) | hmem
    · obtain ⟨hto, hfrom⟩ := hf.through hbare.1.1 hmem hh
      exact ⟨(hrest.unit hbare.2).trans (hto.mono hkey hj), hfrom.mono hkey hj⟩
    · rw [hinjective hh hown]
      exact ⟨hrest.unit hbare.2, hunit⟩
    · obtain ⟨hto, hfrom⟩ := hrest.through hbare.2 hmem hh
      exact ⟨hto, hfrom.trans hunit⟩

theorem Rewrites.walked_expanded (hr : Rewrites g r helper) (hfree : g.EpsilonFree)
    (hkey : g.isKey key) (hs : g.isKey s) (he : s :: tail ∈ g.expanded r key) :
    g.Walked helper key s tail := by
  have hmotive : ExpansionMotive g r helper fun key _ e =>
      .epsilon ∉ e ∧ (g.isKey key → ∀ s tail, g.isKey s → e = s :: tail →
        g.Walked helper key s tail) := by
    refine ⟨?_, fun _ ih _ => ih, ?_⟩
    · intro key e he
      refine ⟨hfree.not_mem he, fun _ s tail hs heq => ?_⟩
      exact walked_original hfree hs (heq ▸ he)
    · intro key j rest f hj hrest hall hf _
      have hjkey : g.isKey j := isKey_of_mem_keysBefore hj
      have hfull : .epsilon ∉ f ++ (helper j).toList := by
        rw [List.mem_append, not_or]
        exact ⟨hr.epsilon_not_mem_expanded hfree hjkey hf, hr.epsilon_not_mem_helper j⟩
      have hbehind : .epsilon ∉ rest := fun h => hrest.1 (List.mem_cons_of_mem j h)
      obtain ⟨x, f', rfl⟩ := List.exists_cons_of_ne_nil (hr.ne_nil_of_mem_expanded hfree hjkey hf)
      rw [join_eq_append hfull hbehind (by simp)]
      refine ⟨fun h => (List.mem_append.mp h).elim hfull hbehind, fun hkey s tail hs heq => ?_⟩
      obtain ⟨rfl, rfl⟩ := List.cons_eq_cons.mp heq
      refine (hrest.2 hkey j rest hjkey rfl).replace hkey hj ((hall _ hf).2 hjkey x f' hs rfl)
        hr.helper_injective fun hsome => ?_
      obtain ⟨tail, htail, hmem⟩ :=
        (hr.helper_ne_none_iff hjkey (hfree.ne_epsilon hjkey)).mp hsome
      exact ((hall _ hmem).2 hjkey j tail hjkey rfl).long htail
  exact (hr.expanded_induction hmotive hkey _ he).2 hkey s tail hs rfl

theorem Rewrites.longWalk_of_helper (hr : Rewrites g r helper) (hfree : g.EpsilonFree)
    (hkey : g.isKey key) (h : helper key ≠ none) : g.LongWalkUpTo key key key := by
  obtain ⟨tail, htail, hmem⟩ := (hr.helper_ne_none_iff hkey (hfree.ne_epsilon hkey)).mp h
  exact (hr.walked_expanded hfree hkey hkey hmem).long htail

theorem Rewrites.collapses_of_hollow (hr : Rewrites g r helper) (hfree : g.EpsilonFree)
    (h : g.Hollow r key) : g.Collapses := by
  obtain ⟨hkey, tail, htail, hmem, hbare⟩ := h
  obtain ⟨new, hnew⟩ := List.exists_mem_of_ne_nil tail htail
  obtain ⟨owner, hh⟩ := (hr.bare_eq_nil_iff hfree hkey hmem).mp hbare new hnew
  have howner := hr.owner_mem_keysBefore hkey hmem hh (List.mem_cons_of_mem key hnew)
  obtain ⟨hto, hfrom⟩ := (hr.walked_expanded hfree hkey hkey hmem).through hbare hnew hh
  refine ⟨key, owner, howner, hto, hfrom, ?_⟩
  exact hr.longWalk_of_helper hfree (isKey_of_mem_keysBefore howner) (by simp [hh])

/-! ## From walks to expanded alternatives -/

/-- What becomes of `s` in front of an alternative of `key`: it is replaced by
alternatives of earlier keys until it is none, and `tail` is what they leave behind. -/
inductive Climbs (g r : Grammar) (key : Symbol) : Symbol → Expression → Symbol → Prop
  | stop {s : Symbol} : s ∉ g.keysBefore key → Climbs g r key s [] s
  | step {s t z : Symbol} {tail rest : Expression} : s ∈ g.keysBefore key → g.isKey t →
      t :: rest ∈ r.alternatives s → Climbs g r key t tail z → Climbs g r key s (tail ++ rest) z

theorem Rewrites.mem_alternatives_of_expanded (hr : Rewrites g r helper) (hfree : g.EpsilonFree)
    (hkey : g.isKey key) (he : s :: tail ∈ g.expanded r key) (hne : s ≠ key) :
    s :: (tail ++ (helper key).toList) ∈ r.alternatives key := by
  refine (hr.mem_alternatives hkey).mpr ⟨s :: tail, he, fun hled => ?_, ?_⟩
  · obtain ⟨_, rest, heq⟩ := isLedBy_iff.mp hled
    exact hne (List.cons_eq_cons.mp heq).1
  · rw [hr.continued_eq hfree hkey he, List.cons_append]

theorem Rewrites.epsilon_not_mem_alternatives (hr : Rewrites g r helper) (hfree : g.EpsilonFree)
    (hkey : g.isKey key) (he : e ∈ r.alternatives key) : .epsilon ∉ e := by
  obtain ⟨f, hf, _, rfl⟩ := (hr.mem_alternatives hkey).mp he
  rw [hr.continued_eq hfree hkey hf, List.mem_append, not_or]
  exact ⟨hr.epsilon_not_mem_expanded hfree hkey hf, hr.epsilon_not_mem_helper key⟩

/-- The first key of a final alternative is a later one. -/
theorem Rewrites.mem_keysBefore_of_alternative (hr : Rewrites g r helper) (hfree : g.EpsilonFree)
    (hkey : g.isKey key) (hs : g.isKey s) (he : s :: tail ∈ r.alternatives key) :
    key ∈ g.keysBefore s :=
  (hr.exposes_of_isKey hfree hkey
    ⟨s :: tail, he, hr.isKey_of_isKey hs, [], tail, rfl, vanishes_nil⟩).2

/-- Once a key has been replaced, neither it nor an earlier one comes up in front again. -/
theorem Rewrites.not_mem_replaced (hr : Rewrites g r helper) (hfree : g.EpsilonFree)
    (hkey : g.isKey key) (hs : g.isKey s) (he : s :: tail ∈ r.alternatives key) :
    s ∉ g.keysBefore key ++ [key] := by
  have horder := hr.mem_keysBefore_of_alternative hfree hkey hs he
  rw [List.mem_append, List.mem_singleton, not_or]
  constructor
  · exact fun hback => not_mem_keysBefore_self (mem_keysBefore_trans hkey hback horder)
  · intro heq
    rw [heq] at horder
    exact not_mem_keysBefore_self horder

theorem mem_substitute_of_ne {body es : List Expression} (hes : s :: rest ∈ es) (hne : s ≠ j) :
    s :: rest ∈ substitute j body es := by
  refine mem_substitute.mpr (Or.inr ⟨hes, fun hled => ?_⟩)
  obtain ⟨_, v, heq⟩ := isLedBy_iff.mp hled
  exact hne (List.cons_eq_cons.mp heq).1

theorem Rewrites.expandLeading_of_climbs (hr : Rewrites g r helper) (hfree : g.EpsilonFree)
    (hkey : g.isKey key) (replaced todo : List Symbol)
    (hkeys : g.keysBefore key = replaced ++ todo) {es : List Expression}
    (hes : s :: rest ∈ es) (hepsilon : .epsilon ∉ rest) (hs : s ∉ replaced)
    (hclimbs : g.Climbs r key s tail z) :
    z :: (tail ++ rest) ∈ expandLeading (todo.map fun j => (j, r.alternatives j)) es := by
  induction todo generalizing replaced es s rest tail with
  | nil =>
    cases hclimbs with
    | stop => exact hes
    | step hmem => exact absurd (by rwa [hkeys, List.append_nil] at hmem) hs
  | cons j todo ih =>
    obtain ⟨hj, hbefore⟩ := keysBefore_eq_of_split hkey hkeys
    have hnext : g.keysBefore key = (replaced ++ [j]) ++ todo := by
      rw [hkeys, List.append_assoc]
      rfl
    by_cases hsj : s = j
    · subst hsj
      cases hclimbs with
      | stop hnot => exact absurd hj hnot
      | @step _ t _ tail rest' _ ht hmem hclimbs =>
        have hjkey := isKey_of_mem_keysBefore hj
        have hfull := hr.epsilon_not_mem_alternatives hfree hjkey hmem
        have hjoin : Expression.join (t :: rest') rest = t :: (rest' ++ rest) :=
          join_eq_append hfull hepsilon (by simp)
        have hsub : t :: (rest' ++ rest) ∈ substitute s (r.alternatives s) es :=
          mem_substitute.mpr (Or.inl ⟨hfree.ne_epsilon hjkey, rest, hes, _, hmem, hjoin.symm⟩)
        have hclear : .epsilon ∉ rest' ++ rest := fun h =>
          (List.mem_append.mp h).elim (fun h => hfull (List.mem_cons_of_mem t h)) hepsilon
        have hnew := hr.not_mem_replaced hfree hjkey ht hmem
        rw [hbefore] at hnew
        have hresult := ih (replaced ++ [s]) hnext hsub hclear hnew hclimbs
        rwa [← List.append_assoc] at hresult
    · have hnew : s ∉ replaced ++ [j] := by
        rw [List.mem_append, List.mem_singleton, not_or]
        exact ⟨hs, hsj⟩
      exact ih (replaced ++ [j]) hnext (mem_substitute_of_ne hes hsj) hepsilon hnew hclimbs

theorem Rewrites.expanded_of_climbs (hr : Rewrites g r helper) (hfree : g.EpsilonFree)
    (hkey : g.isKey key) (he : s :: rest ∈ g.alternatives key)
    (hclimbs : g.Climbs r key s tail z) : z :: (tail ++ rest) ∈ g.expanded r key :=
  hr.expandLeading_of_climbs hfree hkey [] (g.keysBefore key) rfl he
    (fun h => hfree.not_mem he (List.mem_cons_of_mem s h)) (by simp) hclimbs

/-- A climb for a later key passes a climb for an earlier one. -/
theorem Climbs.split (hkey : g.isKey key) (hj : j ∈ g.keysBefore key)
    (h : g.Climbs r key s tail z) :
    ∃ t first last, g.Climbs r j s first t ∧ g.Climbs r key t last z ∧ tail = last ++ first := by
  induction h with
  | @stop s hs =>
    refine ⟨s, [], [], .stop fun hmem => ?_, .stop hs, rfl⟩
    exact hs (mem_keysBefore_trans hkey hj hmem)
  | @step s t z tail rest hs ht hmem hclimbs ih =>
    by_cases hsj : s ∈ g.keysBefore j
    · obtain ⟨m, first, last, hfirst, hlast, rfl⟩ := ih
      refine ⟨m, first ++ rest, last, .step hsj ht hmem hfirst, hlast, ?_⟩
      rw [List.append_assoc]
    · refine ⟨s, [], tail ++ rest, .stop hsj, .step hs ht hmem hclimbs, ?_⟩
      rw [List.append_nil]

/-- What a key with a helper leaves behind is not empty. -/
theorem Rewrites.tail_ne_nil_of_helper (hr : Rewrites g r helper) (hfree : g.EpsilonFree)
    (hs : s ∈ g.keysBefore key) (hhelper : helper s ≠ none) (h : g.Climbs r key s tail z) :
    tail ≠ [] := by
  cases h with
  | stop hnot => exact absurd hs hnot
  | @step _ t _ tail rest _ ht hmem _ =>
    have hskey := isKey_of_mem_keysBefore hs
    obtain ⟨f, hf, _, heq⟩ := (hr.mem_alternatives hskey).mp hmem
    obtain ⟨x, f', rfl⟩ := List.exists_cons_of_ne_nil (hr.ne_nil_of_mem_expanded hfree hskey hf)
    rw [hr.continued_eq hfree hskey hf, List.cons_append] at heq
    obtain ⟨_, rfl⟩ := List.cons_eq_cons.mp heq
    obtain ⟨new, hnew⟩ := Option.ne_none_iff_exists'.mp hhelper
    simp [hnew]

theorem Climbs.isKey (h : g.Climbs r key s tail z) (hs : g.isKey s) : g.isKey z := by
  induction h with
  | stop => exact hs
  | step _ ht _ _ ih => exact ih ht

/-- What may stand behind the first symbols on a walk. -/
structure Behind (helper : Symbol → Option Symbol) (Rest : Expression → Prop) : Prop where
  nil : Rest []
  append_iff {e f : Expression} : Rest (e ++ f) ↔ Rest e ∧ Rest f
  helper (key : Symbol) : Rest (helper key).toList

variable {Rest : Expression → Prop}

/-- A step in front of a climb makes a climb, which leaves something behind if the old one
did or if the step does. -/
theorem Rewrites.climbs_step (hr : Rewrites g r helper) (hfree : g.EpsilonFree)
    (hbehind : Behind helper Rest) (hkey : g.isKey key) (hs : s ∈ g.keysBefore key)
    (ht : g.isKey t) (hmem : t :: rest ∈ g.alternatives s) (hrest : Rest rest)
    (hclimbs : g.Climbs r key t tail z) (htail : Rest tail) :
    ∃ tail', Rest tail' ∧ g.Climbs r key s tail' z ∧ (tail ≠ [] ∨ rest ≠ [] → tail' ≠ []) := by
  have hskey := isKey_of_mem_keysBefore hs
  obtain ⟨m, first, last, hfirst, hlast, rfl⟩ := hclimbs.split hkey hs
  obtain ⟨hRlast, hRfirst⟩ := hbehind.append_iff.mp htail
  have hexpanded := hr.expanded_of_climbs hfree hskey hmem hfirst
  by_cases hms : m = s
  · -- The climb has come back to `s`, and what it has left there is in the helper.
    subst hms
    refine ⟨last, hRlast, hlast, fun hne => ?_⟩
    by_cases hempty : first ++ rest = []
    · obtain ⟨rfl, rfl⟩ := List.append_eq_nil_iff.mp hempty
      simpa using hne
    · have hhelper := (hr.helper_ne_none_iff hskey (hfree.ne_epsilon hskey)).mpr
        ⟨first ++ rest, hempty, hexpanded⟩
      exact hr.tail_ne_nil_of_helper hfree hs hhelper hlast
  · have hfinal := hr.mem_alternatives_of_expanded hfree hskey hexpanded hms
    refine ⟨_, ?_, .step hs (hfirst.isKey ht) hfinal hlast, fun hne => ?_⟩
    · simp only [hbehind.append_iff]
      exact ⟨hRlast, ⟨hRfirst, hrest⟩, hbehind.helper s⟩
    · intro hnil
      simp only [List.append_eq_nil_iff] at hnil
      simp [hnil] at hne

theorem Rewrites.exists_climbs (hr : Rewrites g r helper) (hfree : g.EpsilonFree)
    (hbehind : Behind helper Rest) (hkey : g.isKey key)
    (h : ReflTransGen (g.StepUpTo key Rest) s key) :
    ∃ tail, Rest tail ∧ g.Climbs r key s tail key := by
  induction h using ReflTransGen.head_induction_on with
  | refl => exact ⟨[], hbehind.nil, .stop not_mem_keysBefore_self⟩
  | head hstep _ ih =>
    obtain ⟨tail, htail, hclimbs⟩ := ih
    obtain ⟨hs, ht, rest, hrest, hmem⟩ := hstep
    rcases hs with hs | rfl
    · obtain ⟨tail', htail', hclimbs', _⟩ :=
        hr.climbs_step hfree hbehind hkey hs ht hmem hrest hclimbs htail
      exact ⟨tail', htail', hclimbs'⟩
    · exact ⟨[], hbehind.nil, .stop not_mem_keysBefore_self⟩

/-- A walk to a climb that leaves something behind makes an alternative that does. -/
theorem Rewrites.exists_expanded (hr : Rewrites g r helper) (hfree : g.EpsilonFree)
    (hbehind : Behind helper Rest) (hkey : g.isKey key)
    (h : ReflTransGen (g.StepUpTo key Rest) key s) (hclimbs : g.Climbs r key s tail key)
    (htail : Rest tail) (hne : tail ≠ []) :
    ∃ tail, tail ≠ [] ∧ key :: tail ∈ g.expanded r key ∧ Rest tail := by
  induction h generalizing tail with
  | refl =>
    cases hclimbs with
    | stop => exact absurd rfl hne
    | step hmem => exact absurd hmem not_mem_keysBefore_self
  | tail _ hstep ih =>
    obtain ⟨hs, ht, rest, hrest, hmem⟩ := hstep
    rcases hs with hs | rfl
    · obtain ⟨tail', htail', hclimbs', hgrows⟩ :=
        hr.climbs_step hfree hbehind hkey hs ht hmem hrest hclimbs htail
      exact ih hclimbs' htail' (hgrows (Or.inl hne))
    · refine ⟨tail ++ rest, by simp [hne], hr.expanded_of_climbs hfree hkey hmem hclimbs, ?_⟩
      exact hbehind.append_iff.mpr ⟨htail, hrest⟩

theorem Rewrites.helper_of_longWalk (hr : Rewrites g r helper) (hfree : g.EpsilonFree)
    (hkey : g.isKey key) (h : g.LongWalkUpTo key key key) : helper key ≠ none := by
  have hany : Behind helper fun _ => True := ⟨trivial, by simp, fun _ => trivial⟩
  obtain ⟨a, b, hto, ⟨ha, hb, rest, hrest, hmem⟩, hfrom⟩ := h
  obtain ⟨tail, _, hclimbs⟩ := hr.exists_climbs hfree hany hkey hfrom
  rw [hr.helper_ne_none_iff hkey (hfree.ne_epsilon hkey)]
  rcases ha with ha | rfl
  · obtain ⟨tail', _, hclimbs', hgrows⟩ :=
      hr.climbs_step hfree hany hkey ha hb hmem trivial hclimbs trivial
    obtain ⟨last, hlast, hexpanded, _⟩ :=
      hr.exists_expanded hfree hany hkey hto hclimbs' trivial (hgrows (Or.inr hrest))
    exact ⟨last, hlast, hexpanded⟩
  · exact ⟨tail ++ rest, by simp [hrest], hr.expanded_of_climbs hfree hkey hmem hclimbs⟩

theorem Rewrites.exists_hollow_iff (hr : Rewrites g r helper) (hfree : g.EpsilonFree) :
    (∃ key, g.Hollow r key) ↔ g.Collapses := by
  constructor
  · intro h
    obtain ⟨key, hkey⟩ := h
    exact hr.collapses_of_hollow hfree hkey
  · intro h
    obtain ⟨key, j, hj, hto, hfrom, hlong⟩ := h
    have hbare : Behind helper fun e => g.bare e = [] :=
      ⟨bare_nil, by simp, hr.bare_toList⟩
    have hunit : ∀ s t, g.StepUpTo key (· = []) s t → g.StepUpTo key (g.bare · = []) s t := by
      intro s t hstep
      obtain ⟨hs, ht, rest, rfl, hmem⟩ := hstep
      exact ⟨hs, ht, [], bare_nil, hmem⟩
    have hkey : g.isKey key := by
      rcases ReflTransGen.cases_tail hfrom with heq | ⟨_, _, _, hkey, _⟩
      · rw [heq]
        exact isKey_of_mem_keysBefore hj
      · exact hkey
    have hhelper := hr.helper_of_longWalk hfree (isKey_of_mem_keysBefore hj) hlong
    obtain ⟨tail, htail, hclimbs⟩ :=
      hr.exists_climbs hfree hbare hkey (ReflTransGen.mono hunit _ _ hfrom)
    have hne := hr.tail_ne_nil_of_helper hfree hj hhelper hclimbs
    exact ⟨key, hkey, hr.exists_expanded hfree hbare hkey (ReflTransGen.mono hunit _ _ hto)
      hclimbs htail hne⟩

end Grammar
end LL1
