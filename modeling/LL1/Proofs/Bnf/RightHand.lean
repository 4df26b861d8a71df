import LL1.Bnf.Lexeme
import LL1.Proofs.Except

/-!
# What a right-hand text says

A right-hand text is a list of sequences with bars between them, a sequence a list of
elements with blanks around them. This is said here without the order in which a text is
read, and the reader finds it exactly: a text is read if and only if it has this form,
and then as the alternatives that it is made of.
-/

namespace LL1
namespace Bnf

open Text (isBlank)

def Blank (cs : List Char) : Prop := ∀ c ∈ cs, isBlank c

theorem blank_nil : Blank [] := fun _ hc => absurd hc List.not_mem_nil

/-- What can stand between the brackets of a nonterminal. -/
structure IsName (name : List Char) : Prop where
  ne_nil : name ≠ []
  opening_not_mem : '<' ∉ name
  closing_not_mem : '>' ∉ name

/-- The text of an element and the symbol that it stands for. -/
inductive ElementText : List Char → Symbol → Prop
  | nonTerminal {name : List Char} (h : IsName name) :
    ElementText ('<' :: (name ++ ['>'])) (.nonTerminal (String.ofList name))
  | empty : ElementText ['"', '"'] .epsilon
  | literal {literal : List Char} (hne : literal ≠ []) (h : '"' ∉ literal) :
    ElementText ('"' :: (literal ++ ['"'])) (.terminal (String.ofList literal))

/-- Elements with blanks before, between and behind them. -/
inductive SequenceText : List Char → List Symbol → Prop
  | blank {cs : List Char} (h : Blank cs) : SequenceText cs []
  | element {blanks text rest : List Char} {s : Symbol} {elements : List Symbol}
    (hblanks : Blank blanks) (h : ElementText text s) (hrest : SequenceText rest elements) :
    SequenceText (blanks ++ (text ++ rest)) (s :: elements)

/-- Sequences with bars between them. -/
inductive RightText : List Char → List (List Symbol) → Prop
  | last {cs : List Char} {elements : List Symbol} (h : SequenceText cs elements) :
    RightText cs [elements]
  | bar {cs rest : List Char} {elements : List Symbol} {others : List (List Symbol)}
    (h : SequenceText cs elements) (hrest : RightText rest others) :
    RightText (cs ++ '|' :: rest) (elements :: others)

variable {cs rest text : List Char} {c : Char} {s : Symbol} {elements : List Symbol}
  {others : List (List Symbol)} {found : List Lexeme}

/-! ## Elements -/

theorem readNonTerminal_eq_ok_iff :
    readNonTerminal cs = .ok (s, rest) ↔
      ∃ text, ElementText ('<' :: text) s ∧ cs = text ++ rest := by
  unfold readNonTerminal
  constructor
  · intro h
    split at h
    · exact nomatch h
    · rename_i name behind hfound
      split at h
      · exact nomatch h
      · rename_i hname
        obtain ⟨rfl, rfl⟩ := Prod.mk.inj (Except.ok.inj h)
        obtain ⟨rfl, hclosing⟩ := takeUntil_eq_some_iff.mp hfound
        rw [not_or] at hname
        exact ⟨name ++ ['>'], .nonTerminal ⟨hname.1, hname.2, hclosing⟩,
          List.append_cons name '>' behind⟩
  · intro h
    obtain ⟨text, helement, rfl⟩ := h
    cases helement with
    | @nonTerminal name hname =>
      have hfound : takeUntil '>' (name ++ ['>'] ++ rest) = some (name, rest) :=
        takeUntil_eq_some_iff.mpr ⟨(List.append_cons name '>' rest).symm, hname.closing_not_mem⟩
      simp only [hfound]
      rw [if_neg (not_or.mpr ⟨hname.ne_nil, hname.opening_not_mem⟩)]

theorem readLiteral_eq_ok_iff :
    readLiteral cs = .ok (s, rest) ↔
      ∃ text, ElementText ('"' :: text) s ∧ cs = text ++ rest := by
  unfold readLiteral
  constructor
  · intro h
    split at h
    · exact nomatch h
    · rename_i behind hfound
      obtain ⟨rfl, rfl⟩ := Prod.mk.inj (Except.ok.inj h)
      obtain ⟨rfl, _⟩ := takeUntil_eq_some_iff.mp hfound
      exact ⟨['"'], .empty, rfl⟩
    · rename_i literal behind hne hfound
      obtain ⟨rfl, rfl⟩ := Prod.mk.inj (Except.ok.inj h)
      obtain ⟨rfl, hmark⟩ := takeUntil_eq_some_iff.mp hfound
      exact ⟨literal ++ ['"'], .literal (fun heq => hne heq) hmark,
        List.append_cons literal '"' behind⟩
  · intro h
    obtain ⟨text, helement, rfl⟩ := h
    cases helement with
    | empty =>
      have hfound : takeUntil '"' (['"'] ++ rest) = some ([], rest) := rfl
      simp only [hfound]
    | @literal literal hne hmark =>
      have hfound : takeUntil '"' (literal ++ ['"'] ++ rest) = some (literal, rest) :=
        takeUntil_eq_some_iff.mpr ⟨(List.append_cons literal '"' rest).symm, hmark⟩
      cases literal with
      | nil => exact absurd rfl hne
      | cons d ds => simp only [hfound]

/-! ## What is read of a part of a text -/

theorem lexemes_blank (h : isBlank c) : lexemes text (c :: cs) = lexemes text cs := by
  rw [lexemes, if_pos h]

theorem lexemes_bar : lexemes text ('|' :: cs) = (lexemes text cs).map (Lexeme.bar :: ·) := by
  rw [lexemes, if_neg (by decide), if_pos rfl]

theorem lexemes_of_readNonTerminal (h : readNonTerminal cs = .ok (s, rest)) :
    lexemes text ('<' :: cs) = (lexemes text rest).map (Lexeme.element s :: ·) := by
  rw [lexemes, if_neg (by decide), if_neg (by decide), if_pos rfl]
  split
  · rename_i fault hfault
    cases h.symm.trans hfault
  · rename_i s' behind hfound
    obtain ⟨rfl, rfl⟩ := Prod.mk.inj (Except.ok.inj (h.symm.trans hfound))
    rfl

theorem lexemes_of_readLiteral (h : readLiteral cs = .ok (s, rest)) :
    lexemes text ('"' :: cs) = (lexemes text rest).map (Lexeme.element s :: ·) := by
  rw [lexemes, if_neg (by decide), if_neg (by decide), if_neg (by decide), if_pos rfl]
  split
  · rename_i fault hfault
    cases h.symm.trans hfault
  · rename_i s' behind hfound
    obtain ⟨rfl, rfl⟩ := Prod.mk.inj (Except.ok.inj (h.symm.trans hfound))
    rfl

theorem lexemes_element {element : List Char} (h : ElementText element s) :
    lexemes text (element ++ cs) = (lexemes text cs).map (Lexeme.element s :: ·) := by
  have helement := h
  cases h with
  | nonTerminal _ =>
    exact lexemes_of_readNonTerminal (readNonTerminal_eq_ok_iff.mpr ⟨_, helement, rfl⟩)
  | empty => exact lexemes_of_readLiteral (readLiteral_eq_ok_iff.mpr ⟨_, helement, rfl⟩)
  | literal _ _ => exact lexemes_of_readLiteral (readLiteral_eq_ok_iff.mpr ⟨_, helement, rfl⟩)

theorem lexemes_blanks {blanks : List Char} (h : Blank blanks) :
    lexemes text (blanks ++ cs) = lexemes text cs := by
  induction blanks with
  | nil => rfl
  | cons c blanks ih =>
    obtain ⟨hc, hblanks⟩ := List.forall_mem_cons.mp h
    rw [List.cons_append, lexemes_blank hc]
    exact ih hblanks

/-- A sequence is read as its elements, whatever is behind it. -/
theorem lexemes_sequence (h : SequenceText cs elements) :
    lexemes text (cs ++ rest) =
      (lexemes text rest).map (elements.map Lexeme.element ++ ·) := by
  have hid : ∀ x : Except Fault (List Lexeme), x.map (([] : List Lexeme) ++ ·) = x := by
    intro x
    cases x with
    | error fault => rfl
    | ok found => rfl
  induction h with
  | blank hblank => rw [lexemes_blanks hblank, List.map_nil, hid]
  | @element blanks element others s elements hblanks helement _ ih =>
    rw [List.append_assoc, List.append_assoc, lexemes_blanks hblanks, lexemes_element helement, ih]
    cases lexemes text rest with
    | error fault => rfl
    | ok found => rfl

/-! ## From the text to the alternatives -/

theorem splitAtBars_elements (elements : List Symbol) :
    splitAtBars (elements.map Lexeme.element) = [elements] := by
  induction elements with
  | nil => rfl
  | cons s elements ih =>
    rw [List.map_cons, splitAtBars]
    simp only [ih]

theorem splitAtBars_append_bar (elements : List Symbol) (found : List Lexeme) :
    splitAtBars (elements.map Lexeme.element ++ .bar :: found) = elements :: splitAtBars found := by
  induction elements with
  | nil => rfl
  | cons s elements ih =>
    rw [List.map_cons, List.cons_append, splitAtBars]
    simp only [ih]

/-- Every right-hand text is read, as what it says. -/
theorem RightText.exists_lexemes (h : RightText cs others) (text : List Char) :
    ∃ found, lexemes text cs = .ok found ∧ splitAtBars found = others := by
  induction h with
  | @last cs elements hsequence =>
    refine ⟨elements.map Lexeme.element, ?_, splitAtBars_elements elements⟩
    have hread : lexemes text (cs ++ []) =
        (lexemes text []).map (elements.map Lexeme.element ++ ·) := lexemes_sequence hsequence
    rw [List.append_nil, lexemes] at hread
    rw [hread]
    show Except.ok (elements.map Lexeme.element ++ []) = _
    rw [List.append_nil]
  | @bar cs rest elements others hsequence _ ih =>
    obtain ⟨found, hfound, rfl⟩ := ih
    refine ⟨elements.map Lexeme.element ++ .bar :: found, ?_, splitAtBars_append_bar elements found⟩
    rw [lexemes_sequence hsequence, lexemes_bar, hfound]
    rfl

/-! ## From the alternatives to the text -/

theorem SequenceText.blank_cons (h : SequenceText cs elements) (hc : isBlank c) :
    SequenceText (c :: cs) elements := by
  cases h with
  | blank hblank => exact .blank (List.forall_mem_cons.mpr ⟨hc, hblank⟩)
  | element hblanks helement hrest =>
    exact .element (List.forall_mem_cons.mpr ⟨hc, hblanks⟩) helement hrest

theorem RightText.blank_cons (h : RightText cs others) (hc : isBlank c) :
    RightText (c :: cs) others := by
  cases h with
  | last hsequence => exact .last (hsequence.blank_cons hc)
  | bar hsequence hrest => exact .bar (hsequence.blank_cons hc) hrest

theorem RightText.bar_cons (h : RightText cs others) : RightText ('|' :: cs) ([] :: others) := by
  show RightText ([] ++ '|' :: cs) ([] :: others)
  exact .bar (.blank blank_nil) h

theorem SequenceText.element_append {element : List Char} (h : SequenceText cs elements)
    (helement : ElementText element s) : SequenceText (element ++ cs) (s :: elements) := by
  show SequenceText ([] ++ (element ++ cs)) (s :: elements)
  exact .element blank_nil helement h

theorem RightText.element_append {element : List Char} (h : RightText cs (elements :: others))
    (helement : ElementText element s) : RightText (element ++ cs) ((s :: elements) :: others) := by
  cases h with
  | last hsequence => exact .last (hsequence.element_append helement)
  | bar hsequence hrest =>
    rw [← List.append_assoc]
    exact .bar (hsequence.element_append helement) hrest

/-- The first alternative takes in an element before it. -/
theorem RightText.element_cons {element : List Char} (h : RightText cs (splitAtBars found))
    (helement : ElementText element s) :
    RightText (element ++ cs) (splitAtBars (.element s :: found)) := by
  rw [splitAtBars]
  cases hsplit : splitAtBars found with
  | nil => exact absurd hsplit (splitAtBars_ne_nil found)
  | cons elements others =>
    rw [hsplit] at h
    exact h.element_append helement

/-- What is read is what the text says. -/
theorem rightText_of_lexemes (h : lexemes text rest = .ok found) :
    RightText rest (splitAtBars found) := by
  -- Each case puts back in front what the reader has taken off there.
  fun_induction lexemes text rest generalizing found with
  | case1 =>
    obtain rfl := Except.ok.inj h
    exact .last (.blank blank_nil)
  | case2 c cs hc ih => exact (ih h).blank_cons hc
  | case3 cs _ ih =>
    obtain ⟨behind, hbehind, rfl⟩ := map_eq_ok_iff.mp h
    exact (ih hbehind).bar_cons
  | case4 => exact nomatch h
  | case5 cs s behind hname _ _ ih =>
    obtain ⟨others, hothers, rfl⟩ := map_eq_ok_iff.mp h
    obtain ⟨element, helement, rfl⟩ := readNonTerminal_eq_ok_iff.mp hname
    exact (ih hothers).element_cons helement
  | case6 => exact nomatch h
  | case7 cs s behind hliteral _ _ _ ih =>
    obtain ⟨others, hothers, rfl⟩ := map_eq_ok_iff.mp h
    obtain ⟨element, helement, rfl⟩ := readLiteral_eq_ok_iff.mp hliteral
    exact (ih hothers).element_cons helement
  | case8 => exact nomatch h

/-- A right-hand text is read if and only if it is one, and as the alternatives that it is
made of. One without elements is the empty string. -/
theorem readAlternatives_eq_ok_iff {rights : List Expression} :
    readAlternatives text = .ok rights ↔
      ∃ sequences, RightText text sequences ∧ rights = sequences.map ofElements := by
  unfold readAlternatives
  rw [map_eq_ok_iff]
  constructor
  · intro h
    obtain ⟨found, hfound, rfl⟩ := h
    exact ⟨splitAtBars found, rightText_of_lexemes hfound, rfl⟩
  · intro h
    obtain ⟨sequences, hsequences, rfl⟩ := h
    obtain ⟨found, hfound, rfl⟩ := hsequences.exists_lexemes text
    exact ⟨found, hfound, rfl⟩

end Bnf
end LL1
