import LL1.Proofs.Table

/-!
# Leftmost derivations

A leftmost derivation is told by its rules: each of them replaces the first key of the
form that the ones before it have reached. What stands before the first key is not
replaced any more, so it is what the derived sequence starts with. The rest of the
sequence then decides which cell of a table the next rule is in, and a sequence that is
derived at all is derived by one list of rules only.
-/

namespace LL1
namespace Grammar

variable {g : Grammar} {rule : Rule} {rules rules' : List Rule} {a b c w : List Symbol}

/-- The rule replaces the first key of a form. -/
inductive LeftmostStep (g : Grammar) (rule : Rule) : List Symbol → List Symbol → Prop
  | replace (before after : List Symbol) (hbefore : ∀ s ∈ before, ¬ g.isKey s)
    (h : rule.right ∈ g.alternatives rule.left) :
    LeftmostStep g rule (before ++ rule.left :: after)
      (before ++ (rule.right.withoutEpsilon ++ after))

/-- The rules lead from one form to another if each is applied to the first key. -/
inductive LeftmostBy (g : Grammar) : List Rule → List Symbol → List Symbol → Prop
  | nil (a : List Symbol) : LeftmostBy g [] a a
  | cons {rule : Rule} {rules : List Rule} {a b c : List Symbol} :
    g.LeftmostStep rule a b → LeftmostBy g rules b c → LeftmostBy g (rule :: rules) a c

theorem LeftmostStep.step (h : g.LeftmostStep rule a b) : g.Step a b := by
  obtain ⟨before, after, _, he⟩ := h
  exact Step.replace before after he

theorem LeftmostBy.derives (h : g.LeftmostBy rules a b) : g.Derives a b := by
  induction h with
  | nil a => exact .refl a
  | cons hstep _ ih => exact hstep.step.derives.trans ih

theorem LeftmostBy.snoc (h : g.LeftmostBy rules a b) (hstep : g.LeftmostStep rule b c) :
    g.LeftmostBy (rules ++ [rule]) a c := by
  induction h with
  | nil a => exact .cons hstep (.nil c)
  | cons hfirst _ ih => exact .cons hfirst (ih hstep)

/-- A form without keys derives nothing but itself. -/
theorem derives_iff_of_forall_not_isKey (h : ∀ s ∈ a, ¬ g.isKey s) : g.Derives a w ↔ w = a := by
  induction a generalizing w with
  | nil => exact derives_nil_iff
  | cons s a ih =>
    obtain ⟨hs, ha⟩ := List.forall_mem_cons.mp h
    rw [derives_cons_iff]
    constructor
    · intro hderives
      obtain ⟨u, v, rfl, hu, hv⟩ := hderives
      rw [(derives_singleton_iff_of_not_isKey hs).mp hu, (ih ha).mp hv]
      rfl
    · intro heq
      exact ⟨[s], a, heq, .refl [s], .refl a⟩

/-- A form has only one first key. -/
theorem eq_of_append_key_eq {u v u' v' : List Symbol} {s s' : Symbol}
    (h : u ++ s :: v = u' ++ s' :: v') (hu : ∀ x ∈ u, ¬ g.isKey x) (hu' : ∀ x ∈ u', ¬ g.isKey x)
    (hs : g.isKey s) (hs' : g.isKey s') : u = u' ∧ s = s' ∧ v = v' := by
  rcases append_eq_append_cons h with ⟨mid, rfl, _⟩ | ⟨mid, rfl, hv⟩
  · exact absurd hs' (hu s' (List.mem_append_right _ List.mem_cons_self))
  · cases mid with
    | nil =>
      obtain ⟨rfl, rfl⟩ := List.cons_eq_cons.mp hv
      exact ⟨(List.append_nil u).symm, rfl, rfl⟩
    | cons x mid =>
      obtain ⟨rfl, _⟩ := List.cons_eq_cons.mp hv
      exact absurd hs (hu' s (List.mem_append_right _ List.mem_cons_self))

/-- What stands before the first key begins the sequence that is derived. -/
theorem exists_of_derives_append (hb : ∀ s ∈ b, ¬ g.isKey s) (h : g.Derives (b ++ a) w) :
    ∃ v, w = b ++ v ∧ g.Derives a v := by
  obtain ⟨u, v, rfl, hu, hv⟩ := derives_append_iff.mp h
  rw [(derives_iff_of_forall_not_isKey hb).mp hu]
  exact ⟨v, rfl, hv⟩

/-- The first key of the form before a step is the left side of its rule. -/
theorem LeftmostStep.exists_split (h : g.LeftmostStep rule a b) :
    ∃ before after, (∀ s ∈ before, ¬ g.isKey s) ∧ g.isKey rule.left ∧
      a = before ++ rule.left :: after ∧ b = before ++ (rule.right.withoutEpsilon ++ after) := by
  obtain ⟨before, after, hbefore, he⟩ := h
  exact ⟨before, after, hbefore, isKey_of_mem_alternatives he, rfl, rfl⟩

theorem LeftmostStep.not_forall_not_isKey (h : g.LeftmostStep rule a b) :
    ¬ ∀ s ∈ a, ¬ g.isKey s := by
  obtain ⟨before, after, _, hkey, rfl, _⟩ := h.exists_split
  intro hall
  exact hall rule.left (List.mem_append_right before List.mem_cons_self) hkey

end Grammar

namespace Table

open Grammar

variable {g : Grammar} {t : Table} {rule rule' : Rule} {rules rules' : List Rule}
  {a b b' w : List Symbol}

/-- The rule of a step is in the cell under what the rest of the derived sequence starts
with. -/
theorem Predictive.exists_get?_eq (ht : t.Predictive g) (hepsilon : ¬ g.isKey .epsilon)
    (hform : g.Derives [g.start] a) (hw : ∀ s ∈ w, ¬ g.isKey s ∧ s ≠ .epsilon)
    (hstep : g.LeftmostStep rule a b) (hderives : g.Derives b w) :
    ∃ before after v, (∀ s ∈ before, ¬ g.isKey s) ∧ g.isKey rule.left ∧
      a = before ++ rule.left :: after ∧ b = before ++ (rule.right.withoutEpsilon ++ after) ∧
      w = before ++ v ∧ t.get? rule.left (v.head?.getD .endMark) = some rule := by
  obtain ⟨before, after, hbefore, he⟩ := hstep
  obtain ⟨v, rfl, hv⟩ := exists_of_derives_append hbefore hderives
  have hbegins := begins_of_derives hepsilon (fun s hs => hw s (List.mem_append_right _ hs)) hv
  have hget := ht.get?_eq hform he (begins_withoutEpsilon_append_iff.mp hbegins)
  exact ⟨before, after, v, hbefore, isKey_of_mem_alternatives he, rfl, rfl, rfl, hget⟩

/-- Two first steps towards one sequence are the same. -/
theorem Predictive.leftmostStep_unique (ht : t.Predictive g) (hepsilon : ¬ g.isKey .epsilon)
    (hform : g.Derives [g.start] a) (hw : ∀ s ∈ w, ¬ g.isKey s ∧ s ≠ .epsilon)
    (hstep : g.LeftmostStep rule a b) (hderives : g.Derives b w)
    (hstep' : g.LeftmostStep rule' a b') (hderives' : g.Derives b' w) :
    rule = rule' ∧ b = b' := by
  obtain ⟨u, x, v, hu, hkey, ha, hb, hv, hget⟩ :=
    ht.exists_get?_eq hepsilon hform hw hstep hderives
  obtain ⟨u', x', v', hu', hkey', ha', hb', hv', hget'⟩ :=
    ht.exists_get?_eq hepsilon hform hw hstep' hderives'
  obtain ⟨rfl, hleft, rfl⟩ := eq_of_append_key_eq (ha.symm.trans ha') hu hu' hkey hkey'
  obtain rfl : v = v' := List.append_cancel_left (hv.symm.trans hv')
  obtain rfl : rule = rule' := Option.some.inj (hget.symm.trans (hleft ▸ hget'))
  exact ⟨rfl, hb.trans hb'.symm⟩

/-- A sequence without keys is derived by one list of rules only. -/
theorem Predictive.leftmostBy_unique (ht : t.Predictive g) (hepsilon : ¬ g.isKey .epsilon)
    (hform : g.Derives [g.start] a) (hw : ∀ s ∈ w, ¬ g.isKey s ∧ s ≠ .epsilon)
    (h : g.LeftmostBy rules a w) (h' : g.LeftmostBy rules' a w) : rules = rules' := by
  have hkeys : ∀ s ∈ w, ¬ g.isKey s := fun s hs => (hw s hs).1
  -- Neither list can end before the other, since a form with a first key is not the sequence.
  induction h generalizing rules' with
  | nil w =>
    cases h' with
    | nil => rfl
    | cons hstep' _ => exact absurd hkeys hstep'.not_forall_not_isKey
  | cons hstep hrest ih =>
    cases h' with
    | nil => exact absurd hkeys hstep.not_forall_not_isKey
    | cons hstep' hrest' =>
      obtain ⟨rfl, rfl⟩ := ht.leftmostStep_unique hepsilon hform hw hstep hrest.derives
        hstep' hrest'.derives
      rw [ih (hform.trans hstep.step.derives) hw hrest' hkeys]

end Table
end LL1
