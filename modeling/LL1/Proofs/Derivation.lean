import LL1.Proofs.Grammar
import Mathlib.Logic.Relation

/-!
# Derivations

A sentential form is a list of symbols without the empty-string symbol. A step
replaces one key by one of its alternatives, whose empty-string symbols are
erased at once. A symbol without alternatives is never replaced, whether it is a
terminal, a nonterminal without a rule or a key with an empty rule.

A form derives another one part by part: what a concatenation derives is a
concatenation of what its parts derive.
-/

namespace LL1

/-- A symbol of a concatenation stands in one of the two parts. -/
theorem append_eq_append_cons {α : Type} {a b u v : List α} {s : α} (h : a ++ b = u ++ s :: v) :
    (∃ mid, a = u ++ s :: mid ∧ v = mid ++ b) ∨ ∃ mid, u = a ++ mid ∧ b = mid ++ s :: v := by
  rcases List.append_eq_append_iff.mp h with ⟨mid, hu, hb⟩ | ⟨mid, ha, hv⟩
  · exact Or.inr ⟨mid, hu, hb⟩
  · cases mid with
    | nil => exact Or.inr ⟨[], by simpa using ha.symm, by simpa using hv.symm⟩
    | cons t mid =>
      obtain ⟨rfl, hrest⟩ := List.cons_eq_cons.mp hv
      exact Or.inl ⟨mid, ha, hrest⟩

namespace Expression

@[simp]
theorem withoutEpsilon_nil : withoutEpsilon [] = [] := rfl

@[simp]
theorem withoutEpsilon_epsilon : withoutEpsilon epsilon = [] := rfl

theorem withoutEpsilon_append (e f : Expression) :
    withoutEpsilon (e ++ f) = withoutEpsilon e ++ withoutEpsilon f := List.filter_append ..

theorem withoutEpsilon_cons (s : Symbol) (e : Expression) :
    withoutEpsilon (s :: e) = withoutEpsilon [s] ++ withoutEpsilon e :=
  withoutEpsilon_append [s] e

theorem withoutEpsilon_cons_of_ne {s : Symbol} (h : s ≠ .epsilon) (e : Expression) :
    withoutEpsilon (s :: e) = s :: withoutEpsilon e :=
  List.filter_cons_of_pos (by simp [Symbol.isEpsilon, h])

theorem mem_withoutEpsilon {e : Expression} {s : Symbol} :
    s ∈ withoutEpsilon e ↔ s ∈ e ∧ s ≠ .epsilon := by
  simp [withoutEpsilon, Symbol.isEpsilon]

theorem withoutEpsilon_eq_nil_iff {e : Expression} :
    withoutEpsilon e = [] ↔ ∀ s ∈ e, s = .epsilon := by
  simp [withoutEpsilon, Symbol.isEpsilon]

@[simp]
theorem withoutEpsilon_withoutEpsilon (e : Expression) :
    withoutEpsilon (withoutEpsilon e) = withoutEpsilon e := by
  simp [withoutEpsilon]

/-- A symbol that is not dropped has been there between the same symbols. -/
theorem withoutEpsilon_eq_append_cons {e u v : Expression} {s : Symbol}
    (h : withoutEpsilon e = u ++ s :: v) :
    ∃ u' v', e = u' ++ s :: v' ∧ withoutEpsilon u' = u ∧ withoutEpsilon v' = v := by
  obtain ⟨a, b, rfl, ha, hb⟩ := List.filter_eq_append_iff.mp h
  obtain ⟨c, d, rfl, hc, _, hd⟩ := List.filter_eq_cons_iff.mp hb
  have hc : withoutEpsilon c = [] := List.filter_eq_nil_iff.mpr hc
  refine ⟨a ++ c, d, by rw [List.append_assoc], ?_, hd⟩
  rw [withoutEpsilon_append, hc, List.append_nil]
  exact ha

/-- The empty-string symbol that a join puts back is erased again. -/
theorem withoutEpsilon_join (e tail : Expression) :
    withoutEpsilon (e.join tail) = withoutEpsilon e ++ withoutEpsilon tail := by
  rw [← withoutEpsilon_append, ← withoutEpsilon_withoutEpsilon (e ++ tail)]
  unfold join
  split
  · rename_i h
    rw [h]
    rfl
  · rename_i h
    rw [h]

theorem join_ne_nil (e tail : Expression) : e.join tail ≠ [] := by
  unfold join
  split
  · exact List.cons_ne_nil _ _
  · exact List.cons_ne_nil _ _

/-- A join is its symbols without the empty string, or the empty string alone. -/
theorem join_eq (e tail : Expression) :
    e.join tail = withoutEpsilon (e ++ tail) ∨
      withoutEpsilon (e ++ tail) = [] ∧ e.join tail = epsilon := by
  unfold join
  split
  · rename_i h
    exact Or.inr ⟨h, rfl⟩
  · rename_i h
    exact Or.inl h.symm

end Expression

namespace Grammar

variable {g : Grammar} {s key : Symbol} {a b c d w : List Symbol}

/-- One step of a derivation. -/
inductive Step (g : Grammar) : List Symbol → List Symbol → Prop
  | replace {key : Symbol} {e : Expression} (before after : List Symbol)
      (h : e ∈ g.alternatives key) :
      Step g (before ++ key :: after) (before ++ (e.withoutEpsilon ++ after))

def Derives (g : Grammar) : List Symbol → List Symbol → Prop := Relation.ReflTransGen g.Step

theorem Step.append_left (h : g.Step a b) (c : List Symbol) : g.Step (c ++ a) (c ++ b) := by
  obtain ⟨before, after, he⟩ := h
  simpa only [List.append_assoc] using Step.replace (c ++ before) after he

theorem Step.append_right (h : g.Step a b) (c : List Symbol) : g.Step (a ++ c) (b ++ c) := by
  obtain ⟨before, after, he⟩ := h
  simpa only [List.append_assoc, List.cons_append] using Step.replace before (after ++ c) he

/-- A step in a concatenation is a step in one of its parts. -/
theorem step_append_cases (h : g.Step (a ++ b) w) :
    (∃ c, g.Step a c ∧ w = c ++ b) ∨ ∃ c, g.Step b c ∧ w = a ++ c := by
  generalize hab : a ++ b = ab at h
  obtain ⟨before, after, he⟩ := h
  rcases append_eq_append_cons hab with ⟨mid, rfl, rfl⟩ | ⟨mid, rfl, rfl⟩
  · refine Or.inl ⟨_, Step.replace before mid he, ?_⟩
    rw [List.append_assoc, List.append_assoc]
  · refine Or.inr ⟨_, Step.replace mid after he, ?_⟩
    rw [List.append_assoc]

theorem Derives.refl (a : List Symbol) : g.Derives a a := Relation.ReflTransGen.refl

theorem Derives.trans (hab : g.Derives a b) (hbc : g.Derives b c) : g.Derives a c :=
  Relation.ReflTransGen.trans hab hbc

theorem Step.derives (h : g.Step a b) : g.Derives a b := Relation.ReflTransGen.single h

theorem Derives.append (hab : g.Derives a b) (hcd : g.Derives c d) :
    g.Derives (a ++ c) (b ++ d) := by
  have hleft : g.Derives (a ++ c) (b ++ c) :=
    Relation.ReflTransGen.lift (· ++ c) (fun _ _ (h : g.Step _ _) => h.append_right c) _ _ hab
  have hright : g.Derives (b ++ c) (b ++ d) :=
    Relation.ReflTransGen.lift (b ++ ·) (fun _ _ (h : g.Step _ _) => h.append_left b) _ _ hcd
  exact hleft.trans hright

theorem derives_append_iff :
    g.Derives (a ++ b) w ↔ ∃ u v, w = u ++ v ∧ g.Derives a u ∧ g.Derives b v := by
  constructor
  · intro h
    induction h with
    | refl => exact ⟨a, b, rfl, .refl a, .refl b⟩
    | tail _ hstep ih =>
      obtain ⟨u, v, rfl, hu, hv⟩ := ih
      rcases step_append_cases hstep with ⟨c, hc, rfl⟩ | ⟨c, hc, rfl⟩
      · exact ⟨c, v, rfl, hu.trans hc.derives, hv⟩
      · exact ⟨u, c, rfl, hu, hv.trans hc.derives⟩
  · rintro ⟨u, v, rfl, hu, hv⟩
    exact hu.append hv

theorem derives_cons_iff :
    g.Derives (s :: a) w ↔ ∃ u v, w = u ++ v ∧ g.Derives [s] u ∧ g.Derives a v :=
  derives_append_iff (a := [s])

theorem derives_nil_iff : g.Derives [] w ↔ w = [] := by
  constructor
  · intro h
    rcases Relation.ReflTransGen.cases_head h with h | ⟨c, hc, _⟩
    · exact h.symm
    · generalize hnil : ([] : List Symbol) = a at hc
      obtain ⟨before, after, _⟩ := hc
      simp at hnil
  · rintro rfl
    exact .refl []

/-- A step from one symbol picks an alternative. -/
theorem step_singleton_iff :
    g.Step [s] w ↔ ∃ e ∈ g.alternatives s, w = Expression.withoutEpsilon e := by
  constructor
  · intro h
    generalize hs : [s] = a at h
    obtain ⟨before, after, he⟩ := h
    obtain ⟨rfl, hkey⟩ := List.append_eq_singleton_iff.mp hs.symm |>.resolve_right (by simp)
    obtain ⟨rfl, rfl⟩ := List.cons_eq_cons.mp hkey
    exact ⟨_, he, List.append_nil _⟩
  · rintro ⟨e, he, rfl⟩
    simpa using Step.replace [] [] he

theorem derives_of_mem_alternatives {e : Expression} (h : e ∈ g.alternatives s) :
    g.Derives [s] e.withoutEpsilon :=
  (step_singleton_iff.mpr ⟨e, h, rfl⟩).derives

/-- The first step of a derivation from one symbol picks an alternative. -/
theorem derives_singleton_iff :
    g.Derives [s] w ↔ w = [s] ∨ ∃ e ∈ g.alternatives s, g.Derives e.withoutEpsilon w := by
  constructor
  · intro h
    rcases Relation.ReflTransGen.cases_head h with h | ⟨c, hc, hcw⟩
    · exact Or.inl h.symm
    · obtain ⟨e, he, rfl⟩ := step_singleton_iff.mp hc
      exact Or.inr ⟨e, he, hcw⟩
  · rintro (rfl | ⟨e, he, hew⟩)
    · exact .refl [s]
    · exact (derives_of_mem_alternatives he).trans hew

/-- A symbol without a rule derives nothing but itself. -/
theorem derives_singleton_iff_of_not_isKey (h : ¬ g.isKey s) : g.Derives [s] w ↔ w = [s] := by
  rw [derives_singleton_iff]
  exact or_iff_left fun ⟨_, he, _⟩ => h (isKey_of_mem_alternatives he)

/-- What a derivation brings in comes from alternatives. -/
theorem mem_occurring_of_derives (h : g.Derives a b) (hs : s ∈ b) : s ∈ a ∨ s ∈ g.occurring := by
  induction h with
  | refl => exact Or.inl hs
  | tail _ hstep ih =>
    obtain ⟨before, after, he⟩ := hstep
    rw [List.mem_append, List.mem_append] at hs
    rcases hs with hs | hs | hs
    · exact ih (List.mem_append_left _ hs)
    · exact Or.inr (mem_occurring he (Expression.mem_withoutEpsilon.mp hs).1)
    · exact ih (List.mem_append_right _ (List.mem_cons_of_mem _ hs))

/-- Empty-string symbols of a form are never replaced. -/
theorem derives_withoutEpsilon_of_step (hepsilon : ¬ g.isKey .epsilon) (h : g.Step a b) :
    g.Derives (Expression.withoutEpsilon a) (Expression.withoutEpsilon b) := by
  obtain ⟨before, after, he⟩ := h
  have hne : _ ≠ Symbol.epsilon := fun heq => hepsilon (heq ▸ isKey_of_mem_alternatives he)
  rw [Expression.withoutEpsilon_append, Expression.withoutEpsilon_append,
    Expression.withoutEpsilon_append, Expression.withoutEpsilon_cons_of_ne hne,
    Expression.withoutEpsilon_withoutEpsilon]
  exact (Step.replace _ _ he).derives

theorem Derives.withoutEpsilon (hepsilon : ¬ g.isKey .epsilon) (h : g.Derives a b) :
    g.Derives (Expression.withoutEpsilon a) (Expression.withoutEpsilon b) := by
  induction h with
  | refl => exact .refl _
  | tail _ hstep ih => exact ih.trans (derives_withoutEpsilon_of_step hepsilon hstep)

/-! ## Vanishing sequences -/

/-- A sequence vanishes if it derives the empty form. -/
def Vanishes (g : Grammar) (e : List Symbol) : Prop :=
  g.Derives (Expression.withoutEpsilon e) []

@[simp]
theorem vanishes_nil : g.Vanishes [] := .refl []

@[simp]
theorem vanishes_append {e f : List Symbol} :
    g.Vanishes (e ++ f) ↔ g.Vanishes e ∧ g.Vanishes f := by
  unfold Vanishes
  rw [Expression.withoutEpsilon_append, derives_append_iff]
  constructor
  · rintro ⟨u, v, h, hu, hv⟩
    obtain ⟨rfl, rfl⟩ := List.append_eq_nil_iff.mp h.symm
    exact ⟨hu, hv⟩
  · rintro ⟨he, hf⟩
    exact ⟨[], [], rfl, he, hf⟩

theorem vanishes_cons {s : Symbol} {e : List Symbol} :
    g.Vanishes (s :: e) ↔ g.Vanishes [s] ∧ g.Vanishes e :=
  vanishes_append (e := [s])

@[simp]
theorem vanishes_epsilon : g.Vanishes [.epsilon] := .refl []

theorem vanishes_iff_forall {e : List Symbol} : g.Vanishes e ↔ ∀ s ∈ e, g.Vanishes [s] := by
  induction e with
  | nil => simp
  | cons s e ih => rw [vanishes_cons, ih, List.forall_mem_cons]

theorem vanishes_withoutEpsilon_iff {e : List Symbol} :
    g.Vanishes (Expression.withoutEpsilon e) ↔ g.Vanishes e := by
  unfold Vanishes
  rw [Expression.withoutEpsilon_withoutEpsilon]

theorem vanishes_of_mem_alternatives {e : Expression} (he : e ∈ g.alternatives s)
    (h : g.Vanishes e) : g.Vanishes [s] := by
  by_cases hs : s = .epsilon
  · rw [hs]
    exact vanishes_epsilon
  · unfold Vanishes
    rw [Expression.withoutEpsilon_cons_of_ne hs]
    exact (derives_of_mem_alternatives he).trans h

end Grammar
end LL1
