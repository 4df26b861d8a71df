import LL1.Proofs.Bnf.Shape
import LL1.Proofs.LeftRecursion.Expansion

/-!
# Symbols of the result

The elimination brings in helpers and puts the empty string where an alternative would
be empty. All other symbols have been there before. A helper is a primed key, and a
prime goes inside the brackets of a key, so the result has the shape of a grammar that
could have been read.
-/

namespace LL1

namespace Grammar

open Expression

variable {g r : Grammar} {helper : Symbol → Option Symbol} {key h s : Symbol} {e : Expression}

namespace Rewrites

theorem mem_symbols_or_helper (hr : Rewrites g r helper) (hkey : g.isKey key)
    (he : e ∈ g.expanded r key) (hs : s ∈ e) (hne : s ≠ .epsilon) :
    s ∈ g.symbols ∨ ∃ owner, helper owner = some s := by
  have hmotive : ExpansionMotive g r helper fun _ _ e =>
      ∀ s ∈ e, s ≠ .epsilon → s ∈ g.symbols ∨ ∃ owner, helper owner = some s := by
    refine ⟨fun he s hs _ => Or.inl (mem_symbols_of_mem_alternatives he hs), fun _ ih _ => ih, ?_⟩
    intro key j rest f _ hrest hall hf _ s hs hne
    have hbare : s ∈ withoutEpsilon (Expression.join (f ++ (helper j).toList) rest) :=
      mem_withoutEpsilon.mpr ⟨hs, hne⟩
    rw [withoutEpsilon_join, ← withoutEpsilon_append, mem_withoutEpsilon, List.mem_append,
      List.mem_append, Option.mem_toList, or_assoc] at hbare
    rcases hbare.1 with hmem | hown | hmem
    · exact hall f hf s hmem hne
    · exact Or.inr ⟨j, hown⟩
    · exact hrest s (List.mem_cons_of_mem j hmem) hne
  exact hr.expanded_induction hmotive hkey e he s hs hne

/-- Every symbol of the result but the empty string is an old one or a helper. -/
theorem mem_symbols_or_helper_of_mem_alternatives (hr : Rewrites g r helper)
    (he : e ∈ r.alternatives key) (hs : s ∈ e) (hne : s ≠ .epsilon) :
    s ∈ g.symbols ∨ ∃ owner, helper owner = some s := by
  have hjoin : ∀ {f : Expression} {own : Symbol}, s ∈ f.join [own] → s ∈ f ∨ s = own := by
    intro f own hmem
    have hbare := mem_withoutEpsilon.mpr ⟨hmem, hne⟩
    rw [withoutEpsilon_join, List.mem_append, mem_withoutEpsilon, mem_withoutEpsilon,
      List.mem_singleton] at hbare
    exact hbare.imp And.left And.left
  rcases (hr.isKey_iff key).mp (isKey_of_mem_alternatives he) with hkey | ⟨owner, hh⟩
  · obtain ⟨f, hf, _, rfl⟩ := (hr.mem_alternatives hkey).mp he
    have hcases : s ∈ f ∨ helper key = some s := by
      cases hh : helper key with
      | none =>
        rw [hh] at hs
        exact Or.inl hs
      | some own =>
        rw [hh] at hs
        exact (hjoin hs).imp_right fun heq => by rw [heq]
    rcases hcases with hmem | hown
    · exact hr.mem_symbols_or_helper hkey hf hmem hne
    · exact Or.inr ⟨key, hown⟩
  · rcases (hr.mem_alternatives_helper hh).mp he with ⟨_, tail, _, hmem, rfl⟩ | rfl
    · rcases hjoin hs with hmem' | rfl
      · exact hr.mem_symbols_or_helper (hr.isKey_of_helper hh) hmem
          (List.mem_cons_of_mem owner hmem') hne
      · exact Or.inr ⟨owner, hh⟩
    · exact absurd (List.mem_singleton.mp hs) hne

section Kinds

variable {p : Symbol → Prop}

/-- What all keys have and a prime keeps, the helpers have. -/
theorem of_helper (hr : Rewrites g r helper) (hkeys : ∀ key, g.isKey key → p key)
    (hprime : ∀ s, p s → p s.prime) (hh : helper key = some h) : p h := by
  obtain ⟨n, rfl, _⟩ := hr.helper_primed hh
  exact Function.Iterate.rec p (hkeys key (hr.isKey_of_helper hh)) hprime (n + 1)

theorem of_isKey (hr : Rewrites g r helper) (hkeys : ∀ key, g.isKey key → p key)
    (hprime : ∀ s, p s → p s.prime) (hkey : r.isKey key) : p key := by
  rcases (hr.isKey_iff key).mp hkey with hkey | ⟨owner, hh⟩
  · exact hkeys key hkey
  · exact hr.of_helper hkeys hprime hh

theorem of_mem_alternatives (hr : Rewrites g r helper) (hkeys : ∀ key, g.isKey key → p key)
    (hhelpers : ∀ key h, helper key = some h → p h)
    (hsymbols : ∀ key, ∀ e ∈ g.alternatives key, ∀ s ∈ e, p s) (hepsilon : p .epsilon)
    (he : e ∈ r.alternatives key) (hs : s ∈ e) : p s := by
  by_cases hne : s = .epsilon
  · exact hne ▸ hepsilon
  · rcases hr.mem_symbols_or_helper_of_mem_alternatives he hs hne with hmem | ⟨owner, hh⟩
    · rcases mem_symbols_iff.mp hmem with hkey | hoccurs
      · exact hkeys s hkey
      · obtain ⟨left, f, hf, hmem⟩ := exists_of_mem_occurring hoccurs
        exact hsymbols left f hf s hmem
    · exact hhelpers owner s hh

end Kinds

theorem ne_nil_of_mem_alternatives (hr : Rewrites g r helper) (hg : g.IsTextual)
    (he : e ∈ r.alternatives key) : e ≠ [] := by
  have hmotive : ExpansionMotive g r helper fun _ _ e => e ≠ [] :=
    ⟨hg.ne_nil, fun _ ih _ => ih, fun _ _ _ _ _ => join_ne_nil _ _⟩
  rcases (hr.isKey_iff key).mp (isKey_of_mem_alternatives he) with hkey | ⟨owner, hh⟩
  · obtain ⟨f, hf, _, rfl⟩ := (hr.mem_alternatives hkey).mp he
    cases hh : helper key with
    | none => exact hr.expanded_induction hmotive hkey f hf
    | some own => exact join_ne_nil f [own]
  · rcases (hr.mem_alternatives_helper hh).mp he with ⟨_, tail, _, _, rfl⟩ | rfl
    · exact join_ne_nil tail [key]
    · exact List.cons_ne_nil _ _

theorem isTextual (hr : Rewrites g r helper) (hg : g.IsTextual) : r.IsTextual where
  isKey_start := by
    rw [hr.start_eq]
    exact hr.isKey_of_isKey hg.isKey_start
  isBracketed hkey := hr.of_isKey (fun _ => hg.isBracketed) (fun _ => .prime) hkey
  isWritten he hs := by
    have hhelpers : ∀ key h, helper key = some h → h.IsBracketed := fun _ _ =>
      hr.of_helper (fun _ => hg.isBracketed) fun _ => .prime
    refine hr.of_mem_alternatives (fun _ hkey => Or.inr (Or.inl (hg.isBracketed hkey)))
      (fun key h hh => Or.inr (Or.inl (hhelpers key h hh))) ?_ (Or.inl rfl) he hs
    exact fun _ _ he _ => hg.isWritten he
  ne_nil he := hr.ne_nil_of_mem_alternatives hg he

end Rewrites

/-- The result has the shape of a grammar that is read. -/
theorem IsTextual.withoutLeftRecursion (hg : g.IsTextual) : g.withoutLeftRecursion.IsTextual := by
  by_cases hrec : g.isLeftRecursive
  · obtain ⟨helper, hr⟩ := exists_rewrites hrec
    exact hr.isTextual hg
  · rwa [withoutLeftRecursion_eq_self hrec]

theorem start_withoutLeftRecursion (g : Grammar) : g.withoutLeftRecursion.start = g.start := by
  by_cases hrec : g.isLeftRecursive
  · obtain ⟨helper, hr⟩ := exists_rewrites hrec
    exact hr.start_eq
  · rw [withoutLeftRecursion_eq_self hrec]

/-- The grammar is read from a text, and left recursion is eliminated any number of times. -/
inductive IsPrepared : Grammar → Prop
  | read {text : String} {g : Grammar} (h : Bnf.read text = .ok g) : IsPrepared g
  | eliminated {g : Grammar} (h : IsPrepared g) : IsPrepared g.withoutLeftRecursion

theorem IsPrepared.isTextual (h : g.IsPrepared) : g.IsTextual := by
  induction h with
  | read hread => exact Bnf.isTextual_of_read hread
  | eliminated _ ih => exact ih.withoutLeftRecursion

end Grammar
end LL1
