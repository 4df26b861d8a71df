import LL1.Proofs.Bnf.Reading
import LL1.Proofs.LeftRecursion.Symbols
import LL1.Proofs.Text.Line

/-!
# How the symbols of a grammar are spelled

A symbol that is read stands on one line, between delimiters that it does not hold. A left
side stands before the first `::=` of its line, so it does not hold that either. A prime
changes nothing about this, so the symbols of a grammar stay spelled like this when left
recursion is eliminated. The start symbol stays the first key.
-/

namespace LL1

namespace Bnf

open Text (trim)

def defineMark : List Char := [':', ':', '=']

theorem defineMark_not_infix_concat {c : Char} {cs : List Char} (h : ¬ defineMark <:+: cs)
    (hc : c ≠ '=') : ¬ defineMark <:+: cs ++ [c] := by
  intro hwithin
  rcases List.infix_concat_iff.mp hwithin with hsuffix | hwithin
  · obtain ⟨front, hfront⟩ := hsuffix
    have hfront : (front ++ [':', ':']) ++ ['='] = cs ++ [c] := by
      rw [← hfront, List.append_assoc]
      rfl
    exact hc (List.cons.inj (List.append_inj_right' hfront rfl)).1.symm
  · exact h hwithin

end Bnf

namespace Symbol

variable {s : Symbol}

/-- An element on a line spells the symbol. -/
def IsSpelled (s : Symbol) : Prop := ∃ text, Bnf.ElementText text s ∧ '\n' ∉ text

/-- A left side of a line spells the symbol. -/
def IsLeftSide (s : Symbol) : Prop :=
  ∃ name, Bnf.IsName name ∧ '\n' ∉ name ∧ ¬ Bnf.defineMark <:+: name ∧
    s = nonTerminal (String.ofList name)

theorem isSpelled_epsilon : epsilon.IsSpelled := ⟨_, .empty, by decide⟩

theorem IsLeftSide.isSpelled (h : s.IsLeftSide) : s.IsSpelled := by
  obtain ⟨name, hname, hline, _, rfl⟩ := h
  exact ⟨_, .nonTerminal hname, by simp [hline]⟩

theorem IsLeftSide.prime (h : s.IsLeftSide) : s.prime.IsLeftSide := by
  obtain ⟨name, hname, hline, hmark, rfl⟩ := h
  refine ⟨name ++ "'".toList, ⟨?_, ?_, ?_⟩, ?_, ?_, ?_⟩
  · simp [hname.ne_nil]
  · simp [hname.opening_not_mem]
  · simp [hname.closing_not_mem]
  · simp [hline]
  · exact Bnf.defineMark_not_infix_concat hmark (by decide)
  · rw [prime_nonTerminal, String.ofList_append, String.ofList_toList]

end Symbol

namespace Grammar

/-- The start symbol is the first key, and all symbols are spelled as a text can. -/
structure IsSpelled (g : Grammar) : Prop where
  head?_keys : g.keys.head? = some g.start
  isLeftSide {key : Symbol} : g.isKey key → key.IsLeftSide
  isSpelled {key s : Symbol} {e : Expression} : e ∈ g.alternatives key → s ∈ e → s.IsSpelled

end Grammar

namespace Bnf

open Text (trim)

variable {cs line before after : List Char} {previous : Option Symbol} {left s : Symbol}
  {elements : List Symbol} {sequences : List (List Symbol)} {d : Definition}
  {definitions : List Definition} {lines : List (List Char)}

/-! ## What is read -/

theorem SequenceText.isSpelled (h : SequenceText cs elements) (hline : '\n' ∉ cs) :
    ∀ s ∈ elements, s.IsSpelled := by
  induction h with
  | blank _ =>
    intro s hs
    cases hs
  | element _ helement _ ih =>
    rw [List.mem_append, List.mem_append, not_or, not_or] at hline
    intro s hs
    rcases List.mem_cons.mp hs with rfl | hs
    · exact ⟨_, helement, hline.2.1⟩
    · exact ih hline.2.2 s hs

theorem RightText.isSpelled (h : RightText cs sequences) (hline : '\n' ∉ cs) :
    ∀ elements ∈ sequences, ∀ s ∈ ofElements elements, s.IsSpelled := by
  have hspelled : ∀ {cs : List Char} {elements : List Symbol}, SequenceText cs elements →
      '\n' ∉ cs → ∀ s ∈ ofElements elements, s.IsSpelled := by
    intro cs elements hsequence hline s hs
    cases elements with
    | nil => exact List.mem_singleton.mp hs ▸ Symbol.isSpelled_epsilon
    | cons t elements => exact hsequence.isSpelled hline s hs
  induction h with
  | last hsequence =>
    intro elements helements
    rw [List.mem_singleton.mp helements]
    exact hspelled hsequence hline
  | bar hsequence _ ih =>
    rw [List.mem_append, List.mem_cons, not_or, not_or] at hline
    intro elements helements
    rcases List.mem_cons.mp helements with rfl | helements
    · exact hspelled hsequence hline.1
    · exact ih hline.2.2 elements helements

/-- There is no `::=` before the first one. -/
theorem SplitsAtDefine.not_isInfix (h : SplitsAtDefine line before after) :
    ¬ defineMark <:+: before := by
  intro hwithin
  obtain ⟨front, back, hbefore⟩ := hwithin
  have hline : line = front ++ ':' :: ':' :: '=' :: (back ++ ':' :: ':' :: '=' :: after) := by
    rw [h.eq, ← hbefore]
    simp [defineMark]
  have hle := h.first hline
  have hlength := congrArg List.length hbefore
  simp only [List.length_append, defineMark, List.length_cons, List.length_nil] at hlength
  omega

theorem LeftText.isLeftSide (h : LeftText before left) (hsplit : SplitsAtDefine line before after)
    (hline : '\n' ∉ line) : left.IsLeftSide := by
  obtain ⟨name, hname, htrim, hleft⟩ := h
  have hwithin : name <:+: before := by
    have hmiddle : name <:+: trim before := ⟨['<'], ['>'], by rw [htrim]; rfl⟩
    exact hmiddle.trans (Text.trim_isInfix before)
  refine ⟨name, hname, fun hmem => hline ?_, fun hmark => ?_, hleft⟩
  · rw [hsplit.eq]
    exact List.mem_append_left _ (hwithin.subset hmem)
  · exact hsplit.not_isInfix (hmark.trans hwithin)

/-- The symbols of a definition are spelled as a line can. -/
def Definition.IsSpelled (d : Definition) : Prop :=
  d.left.IsLeftSide ∧ ∀ e ∈ d.rights, ∀ s ∈ e, s.IsSpelled

theorem LineText.isSpelled (h : LineText previous line d) (hline : '\n' ∉ line)
    (hprevious : ∀ s ∈ previous, s.IsLeftSide) : d.IsSpelled := by
  cases h with
  | continuation hsome h =>
    obtain ⟨text, rfl, hright⟩ := h
    have htext : '\n' ∉ text := fun hmem => hline (List.mem_cons_of_mem _ hmem)
    refine ⟨hprevious _ hsome, List.forall_mem_map.mpr (hright.isSpelled htext)⟩
  | rule h =>
    obtain ⟨_, before, text, hsplit, hleft, hright⟩ := h
    have htext : '\n' ∉ text := fun hmem => hline (by simp [hsplit.eq, hmem])
    exact ⟨hleft.isLeftSide hsplit hline, List.forall_mem_map.mpr (hright.isSpelled htext)⟩

theorem LinesText.isSpelled (h : LinesText previous lines definitions)
    (hlines : ∀ line ∈ lines, '\n' ∉ line) (hprevious : ∀ s ∈ previous, s.IsLeftSide) :
    ∀ d ∈ definitions, d.IsSpelled := by
  induction h with
  | nil =>
    intro d hd
    cases hd
  | cons hline _ ih =>
    obtain ⟨hfirst, hothers⟩ := List.forall_mem_cons.mp hlines
    have hd := hline.isSpelled hfirst hprevious
    refine List.forall_mem_cons.mpr ⟨hd, ih hothers fun s hs => ?_⟩
    rw [← Option.some.inj hs]
    exact hd.1

theorem newline_not_mem_filledLines (h : line ∈ filledLines (Text.lines cs)) : '\n' ∉ line := by
  obtain ⟨raw, hraw, rfl⟩ := List.mem_map.mp (List.mem_filter.mp h).1
  exact fun hmem => Text.not_mem_lines hraw ((Text.trim_isInfix raw).subset hmem)

theorem Describes.isSpelled {g : Grammar} (h : Describes definitions g)
    (hspelled : ∀ d ∈ definitions, d.IsSpelled) : g.IsSpelled where
  head?_keys := by
    have hstart := h.start
    rw [h.keys]
    cases definitions with
    | nil => cases hstart
    | cons d others =>
      rw [List.map_cons, List.eraseDups_cons]
      exact hstart
  isLeftSide {key} hkey := by
    have hmem := Grammar.mem_keys.mpr hkey
    rw [h.keys, List.mem_eraseDups] at hmem
    obtain ⟨d, hd, rfl⟩ := List.mem_map.mp hmem
    exact (hspelled d hd).1
  isSpelled {key} {s} {e} he hs := by
    rw [h.alternatives, List.mem_flatMap] at he
    obtain ⟨d, hd, he⟩ := he
    exact (hspelled d (List.mem_filter.mp hd).1).2 e he s hs

theorem isSpelled_of_read {text : String} {g : Grammar} (h : read text = .ok g) : g.IsSpelled := by
  obtain ⟨definitions, hlines, hdescribes⟩ := read_eq_ok_iff.mp h
  refine hdescribes.isSpelled (hlines.isSpelled (fun _ => newline_not_mem_filledLines) ?_)
  exact fun s hs => nomatch hs

end Bnf

/-! ## What elimination makes of it -/

namespace Grammar

variable {g r : Grammar} {helper : Symbol → Option Symbol}

theorem Rewrites.isSpelled (hr : Rewrites g r helper) (hg : g.IsSpelled) : r.IsSpelled where
  head?_keys := by
    rw [hr.keys_eq, List.head?_append, hg.head?_keys, hr.start_eq]
    rfl
  isLeftSide hkey := hr.of_isKey (fun _ => hg.isLeftSide) (fun _ => .prime) hkey
  isSpelled he hs := by
    have hhelpers : ∀ key h, helper key = some h → h.IsLeftSide := fun _ _ =>
      hr.of_helper (fun _ => hg.isLeftSide) fun _ => .prime
    refine hr.of_mem_alternatives (fun _ hkey => (hg.isLeftSide hkey).isSpelled)
      (fun key h hh => (hhelpers key h hh).isSpelled) ?_ Symbol.isSpelled_epsilon he hs
    exact fun _ _ he _ => hg.isSpelled he

theorem IsSpelled.withoutLeftRecursion (hg : g.IsSpelled) : g.withoutLeftRecursion.IsSpelled := by
  by_cases hrec : g.isLeftRecursive
  · obtain ⟨helper, hr⟩ := exists_rewrites hrec
    exact hr.isSpelled hg
  · rwa [withoutLeftRecursion_eq_self hrec]

theorem IsPrepared.isSpelled (h : g.IsPrepared) : g.IsSpelled := by
  induction h with
  | read hread => exact Bnf.isSpelled_of_read hread
  | eliminated _ ih => exact ih.withoutLeftRecursion

end Grammar
end LL1
