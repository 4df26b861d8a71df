import LL1.Proofs.Bnf.Naming

/-!
# Where tokens come from

All symbols are texts, and only their delimiters tell what kind they are of. Elimination
gives helpers names in brackets, so a symbol that is the terminal of a token has been read
from a literal with exactly the text of the token. It is no key, and neither the empty
string nor the end mark.
-/

namespace LL1

namespace Symbol

/-- A name in angle brackets that holds none itself. -/
def IsNamed (s : Symbol) : Prop := ∃ name, Bnf.IsName name ∧ s = nonTerminal (String.ofList name)

/-- A text in quotation marks that is not empty and holds none itself. -/
def IsLiteral (s : Symbol) : Prop :=
  ∃ literal : List Char, literal ≠ [] ∧ '"' ∉ literal ∧ s = terminal (String.ofList literal)

variable {s : Symbol}

theorem toList_terminal (literal : String) :
    (terminal literal).content.toList = '"' :: (literal.toList ++ ['"']) := by
  simp [terminal]

theorem terminal_inj {literal literal' : String} (h : terminal literal = terminal literal') :
    literal = literal' := by
  have hlist := congrArg (fun s : Symbol => s.content.toList) h
  simp only [toList_terminal, List.cons.injEq, true_and, List.append_left_inj] at hlist
  exact String.ext hlist

theorem IsLeftSide.isNamed (h : s.IsLeftSide) : s.IsNamed := by
  obtain ⟨name, hname, _, _, hs⟩ := h
  exact ⟨name, hname, hs⟩

theorem IsSpelled.kinds (h : s.IsSpelled) : s = epsilon ∨ s.IsNamed ∨ s.IsLiteral := by
  obtain ⟨text, htext, _⟩ := h
  cases htext with
  | nonTerminal hname => exact Or.inr (Or.inl ⟨_, hname, rfl⟩)
  | empty => exact Or.inl rfl
  | literal hne hmark => exact Or.inr (Or.inr ⟨_, hne, hmark, rfl⟩)

end Symbol

namespace Bnf

/-- What stands behind the bar or the `::=` of a line. -/
inductive RightPart (line : List Char) : List Char → Prop
  | continuation {right : List Char} (h : line = '|' :: right) : RightPart line right
  | rule {before right : List Char} (hbar : line.head? ≠ some '|')
    (h : SplitsAtDefine line before right) : RightPart line right

/-- The text of an element stands in a right-hand text where an element can start: what is
in front of it could be read by itself. -/
def HasElement (right element : List Char) : Prop :=
  ∃ before behind, right = before ++ (element ++ behind) ∧ ∃ sequences, RightText before sequences

/-- A line of the text has a literal with exactly this text. -/
def HasLiteral (text literal : String) : Prop :=
  literal ≠ "" ∧ '"' ∉ literal.toList ∧ ∃ line ∈ filledLines (Text.lines text.toList),
    ∃ right, RightPart line right ∧ HasElement right ('"' :: (literal.toList ++ ['"']))

variable {right line : List Char} {previous : Option Symbol} {s : Symbol} {e : Expression}
  {elements : List Symbol} {sequences : List (List Symbol)} {d : Definition}
  {definitions : List Definition} {lines : List (List Char)} {text literal : String}

/-! ## What is read -/

theorem SequenceText.exists_element (h : SequenceText right elements) (hs : s ∈ elements) :
    ∃ before element behind found, right = before ++ (element ++ behind) ∧
      ElementText element s ∧ SequenceText before found := by
  induction h with
  | blank _ => cases hs
  | @element blanks element rest s' elements hblanks helement hrest ih =>
    rcases List.mem_cons.mp hs with rfl | hs
    · exact ⟨blanks, element, rest, [], rfl, helement, .blank hblanks⟩
    · obtain ⟨before, other, behind, found, rfl, hother, hbefore⟩ := ih hs
      refine ⟨blanks ++ (element ++ before), other, behind, s' :: found, ?_, hother,
        .element hblanks helement hbefore⟩
      simp only [List.append_assoc]

theorem RightText.exists_element (h : RightText right sequences) (helements : elements ∈ sequences)
    (hs : s ∈ elements) : ∃ element, ElementText element s ∧ HasElement right element := by
  induction h with
  | last hsequence =>
    rw [List.mem_singleton.mp helements] at hs
    obtain ⟨before, element, behind, found, rfl, helement, hbefore⟩ := hsequence.exists_element hs
    exact ⟨element, helement, before, behind, rfl, [found], .last hbefore⟩
  | @bar cs rest first others hsequence _ ih =>
    rcases List.mem_cons.mp helements with rfl | helements
    · obtain ⟨before, element, behind, found, rfl, helement, hbefore⟩ := hsequence.exists_element hs
      refine ⟨element, helement, before, behind ++ '|' :: rest, ?_, [found], .last hbefore⟩
      simp only [List.append_assoc]
    · obtain ⟨element, helement, before, behind, rfl, found, hbefore⟩ := ih helements
      refine ⟨element, helement, cs ++ '|' :: before, behind, ?_, first :: found,
        .bar hsequence hbefore⟩
      simp only [List.append_assoc, List.cons_append]

/-- Each sequence of a definition stands on its line. -/
theorem LineText.exists_rightText (h : LineText previous line d) (he : e ∈ d.rights) :
    ∃ right sequences, RightPart line right ∧ RightText right sequences ∧
      ∃ elements ∈ sequences, e = ofElements elements := by
  cases h with
  | continuation _ h =>
    obtain ⟨right, hline, hright⟩ := h
    obtain ⟨elements, helements, rfl⟩ := List.mem_map.mp he
    exact ⟨right, _, .continuation hline, hright, elements, helements, rfl⟩
  | rule h =>
    obtain ⟨hbar, before, right, hsplit, _, hright⟩ := h
    obtain ⟨elements, helements, rfl⟩ := List.mem_map.mp he
    exact ⟨right, _, .rule hbar hsplit, hright, elements, helements, rfl⟩

theorem LinesText.exists_lineText (h : LinesText previous lines definitions)
    (hd : d ∈ definitions) : ∃ line ∈ lines, ∃ previous, LineText previous line d := by
  induction h with
  | nil => cases hd
  | cons hline _ ih =>
    rcases List.mem_cons.mp hd with rfl | hd
    · exact ⟨_, List.mem_cons_self, _, hline⟩
    · obtain ⟨line, hmem, hline⟩ := ih hd
      exact ⟨line, List.mem_cons_of_mem _ hmem, hline⟩

theorem ElementText.of_terminal {element : List Char}
    (h : ElementText element (.terminal literal)) :
    literal ≠ "" ∧ '"' ∉ literal.toList ∧ element = '"' :: (literal.toList ++ ['"']) := by
  generalize hs : Symbol.terminal literal = s at h
  cases h with
  | @nonTerminal name _ => exact absurd hs.symm ((isBracketed_nonTerminal _).ne_terminal literal)
  | empty => exact absurd hs (Symbol.terminal_ne_epsilon literal)
  | @literal chars hne hmark =>
    obtain rfl := Symbol.terminal_inj hs
    rw [String.toList_ofList]
    refine ⟨fun hempty => hne ?_, hmark, rfl⟩
    rw [← String.toList_ofList (l := chars), hempty]
    rfl

/-- The literals of a grammar are literals of the text. -/
def LiteralsFrom (text : String) (g : Grammar) : Prop :=
  ∀ key, ∀ e ∈ g.alternatives key, ∀ literal, .terminal literal ∈ e → HasLiteral text literal

theorem literalsFrom_of_read {g : Grammar} (h : read text = .ok g) : LiteralsFrom text g := by
  obtain ⟨definitions, hlines, hdescribes⟩ := read_eq_ok_iff.mp h
  intro key e he literal hliteral
  rw [hdescribes.alternatives, List.mem_flatMap] at he
  obtain ⟨d, hd, he⟩ := he
  obtain ⟨line, hline, _, hsays⟩ := hlines.exists_lineText (List.mem_filter.mp hd).1
  obtain ⟨right, sequences, hpart, hright, elements, helements, rfl⟩ := hsays.exists_rightText he
  have hmem : .terminal literal ∈ elements := by
    cases elements with
    | nil => exact absurd (List.mem_singleton.mp hliteral) (Symbol.terminal_ne_epsilon literal)
    | cons s elements => exact hliteral
  obtain ⟨element, helement, hwithin⟩ := hright.exists_element helements hmem
  obtain ⟨hne, hmark, rfl⟩ := helement.of_terminal
  exact ⟨hne, hmark, line, hline, right, hpart, hwithin⟩

end Bnf

/-! ## What elimination makes of it -/

namespace Grammar

open Bnf

variable {g r : Grammar} {helper : Symbol → Option Symbol} {text : String}

theorem IsPrepared.iterate (h : g.IsPrepared) (n : Nat) : (withoutLeftRecursion^[n] g).IsPrepared :=
  Function.Iterate.rec IsPrepared h (fun _ => .eliminated) n

theorem Rewrites.literalsFrom (hr : Rewrites g r helper) (hg : g.IsTextual)
    (h : LiteralsFrom text g) : LiteralsFrom text r := by
  intro key e he literal hliteral
  have hbracketed : ∀ {s : Symbol}, s.IsBracketed → ∀ literal, s = .terminal literal →
      HasLiteral text literal := fun hs literal heq => absurd heq (hs.ne_terminal literal)
  refine hr.of_mem_alternatives (p := fun s => ∀ literal, s = .terminal literal →
    HasLiteral text literal) (fun key hkey => hbracketed (hg.isBracketed hkey)) (fun key s hh => ?_)
    ?_ ?_ he hliteral literal rfl
  · exact hbracketed (hr.of_helper (fun _ => hg.isBracketed) (fun _ => .prime) hh)
  · intro key e he s hs literal heq
    exact h key e he literal (heq ▸ hs)
  · exact fun literal heq => absurd heq.symm (Symbol.terminal_ne_epsilon literal)

theorem literalsFrom_withoutLeftRecursion (hg : g.IsTextual) (h : LiteralsFrom text g) :
    LiteralsFrom text g.withoutLeftRecursion := by
  by_cases hrec : g.isLeftRecursive
  · obtain ⟨helper, hr⟩ := exists_rewrites hrec
    exact hr.literalsFrom hg h
  · rwa [withoutLeftRecursion_eq_self hrec]

theorem literalsFrom_iterate (hread : read text = .ok g) (n : Nat) :
    LiteralsFrom text (withoutLeftRecursion^[n] g) := by
  induction n with
  | zero => exact literalsFrom_of_read hread
  | succ n ih =>
    rw [Function.iterate_succ_apply']
    exact literalsFrom_withoutLeftRecursion ((IsPrepared.read hread).iterate n).isTextual ih

/-- No symbol of one kind is mistaken for one of another kind in a grammar that goes back to
a text. -/
structure SymbolsApart (g : Grammar) (text : String) : Prop where
  isKey_start : g.isKey g.start
  isNamed {key : Symbol} : g.isKey key → key.IsNamed
  ne_nil {key : Symbol} {e : Expression} : e ∈ g.alternatives key → e ≠ []
  kinds {key s : Symbol} {e : Expression} :
    e ∈ g.alternatives key → s ∈ e → s = .epsilon ∨ s.IsNamed ∨ s.IsLiteral
  endMark_not_mem : .endMark ∉ g.symbols
  terminal_apart (token : String) : ¬ g.isKey (.terminal token) ∧
    Symbol.terminal token ≠ .epsilon ∧ Symbol.terminal token ≠ .endMark
  hasLiteral {key : Symbol} {e : Expression} {token : String} :
    e ∈ g.alternatives key → .terminal token ∈ e → HasLiteral text token

/-- A grammar that is read keeps its symbols apart, however often left recursion is
eliminated. -/
theorem symbolsApart_iterate (hread : read text = .ok g) (n : Nat) :
    (withoutLeftRecursion^[n] g).SymbolsApart text := by
  have hprepared := (IsPrepared.read hread).iterate n
  have htextual := hprepared.isTextual
  have hspelled := hprepared.isSpelled
  constructor
  · exact htextual.isKey_start
  · exact fun hkey => (hspelled.isLeftSide hkey).isNamed
  · exact htextual.ne_nil
  · exact fun he hs => (hspelled.isSpelled he hs).kinds
  · exact htextual.endMark_not_mem_symbols
  · exact fun token => ⟨htextual.not_isKey_terminal token, Symbol.terminal_ne_epsilon token,
      Symbol.terminal_ne_endMark token⟩
  · exact fun he hmem => literalsFrom_iterate hread n _ _ he _ hmem

/-- A name in quotation marks and a literal in brackets. -/
def lookalikesText : String := "<S> ::= <S> \"<S>\" | <\"a\"> \"$\""

/-- The literal stands only in the alternatives of the helper. -/
theorem symbolsApart_lookalikes :
    ∃ g, read lookalikesText = .ok g ∧ (withoutLeftRecursion^[2] g).SymbolsApart lookalikesText ∧
      HasLiteral lookalikesText "<S>" := by
  have heval : (read lookalikesText).map (fun g =>
      (withoutLeftRecursion^[2] g).alternatives (.nonTerminal "S'")) =
      .ok [[.terminal "<S>", .nonTerminal "S'"], [.epsilon]] := by
    decide +kernel
  obtain ⟨g, hread, halternatives⟩ := map_eq_ok_iff.mp heval
  have hapart := symbolsApart_iterate hread 2
  have hmem : [.terminal "<S>", .nonTerminal "S'"] ∈
      (withoutLeftRecursion^[2] g).alternatives (.nonTerminal "S'") := by
    rw [halternatives]
    exact List.mem_cons_self
  exact ⟨g, hread, hapart, hapart.hasLiteral hmem List.mem_cons_self⟩

end Grammar
end LL1
