import LL1.Bnf.Document
import LL1.Proofs.Except
import LL1.Proofs.Grammar

/-!
# The shape of grammars that are read

A text cannot write every grammar. Its left sides are in angle brackets, its other
symbols are in angle brackets or quotation marks or are the empty string, and each
alternative has a symbol. So no key of a grammar that is read is the empty string,
the end mark or a token.
-/

namespace LL1

namespace Symbol

variable {s : Symbol}

/-- The symbol is a name in angle brackets. -/
def IsBracketed (s : Symbol) : Prop := ∃ name, s = nonTerminal name

/-- A symbol that a right-hand text can write. -/
def IsWritten (s : Symbol) : Prop := s = epsilon ∨ s.IsBracketed ∨ ∃ literal, s = terminal literal

theorem head?_nonTerminal (name : String) : (nonTerminal name).content.toList.head? = some '<' := by
  simp [nonTerminal]

theorem head?_terminal (literal : String) :
    (terminal literal).content.toList.head? = some '"' := by
  simp [terminal]

theorem IsBracketed.head?_eq (h : s.IsBracketed) : s.content.toList.head? = some '<' := by
  obtain ⟨name, rfl⟩ := h
  exact head?_nonTerminal name

theorem IsBracketed.ne_epsilon (h : s.IsBracketed) : s ≠ epsilon := by
  intro heq
  have hhead := h.head?_eq
  rw [heq] at hhead
  exact absurd hhead (by decide)

theorem IsBracketed.ne_endMark (h : s.IsBracketed) : s ≠ endMark := by
  intro heq
  have hhead := h.head?_eq
  rw [heq] at hhead
  exact absurd hhead (by decide)

theorem IsBracketed.ne_terminal (h : s.IsBracketed) (literal : String) : s ≠ terminal literal := by
  intro heq
  have hhead := h.head?_eq
  rw [heq, head?_terminal] at hhead
  exact absurd hhead (by decide)

theorem terminal_ne_epsilon (literal : String) : terminal literal ≠ epsilon := by
  intro heq
  have hhead := head?_terminal literal
  rw [heq] at hhead
  exact absurd hhead (by decide)

theorem terminal_ne_endMark (literal : String) : terminal literal ≠ endMark := by
  intro heq
  have hhead := head?_terminal literal
  rw [heq] at hhead
  exact absurd hhead (by decide)

theorem IsWritten.ne_endMark (h : s.IsWritten) : s ≠ endMark := by
  rcases h with rfl | h | ⟨literal, rfl⟩
  · decide
  · exact h.ne_endMark
  · exact terminal_ne_endMark literal

/-- A prime goes inside the brackets. -/
theorem prime_nonTerminal (name : String) : (nonTerminal name).prime = nonTerminal (name ++ "'") := by
  have hlist : (nonTerminal name).content.toList = ('<' :: name.toList) ++ ['>'] := by
    simp [nonTerminal]
  unfold Symbol.prime
  simp only [hlist, List.getLast?_concat, List.dropLast_concat]
  rw [if_pos (by simp)]
  apply Symbol.ext
  apply String.ext
  simp [nonTerminal]

theorem IsBracketed.prime (h : s.IsBracketed) : s.prime.IsBracketed := by
  obtain ⟨name, rfl⟩ := h
  exact ⟨name ++ "'", prime_nonTerminal name⟩

end Symbol

/-- The shape that grammars have that are read from texts. -/
structure Grammar.IsTextual (g : Grammar) : Prop where
  isKey_start : g.isKey g.start
  isBracketed {key : Symbol} : g.isKey key → key.IsBracketed
  isWritten {key s : Symbol} {e : Expression} : e ∈ g.alternatives key → s ∈ e → s.IsWritten
  ne_nil {key : Symbol} {e : Expression} : e ∈ g.alternatives key → e ≠ []

namespace Grammar.IsTextual

variable {g : Grammar} {key : Symbol}

theorem not_isKey_epsilon (h : g.IsTextual) : ¬ g.isKey .epsilon := fun hkey =>
  (h.isBracketed hkey).ne_epsilon rfl

theorem not_isKey_terminal (h : g.IsTextual) (literal : String) :
    ¬ g.isKey (.terminal literal) := fun hkey =>
  (h.isBracketed hkey).ne_terminal literal rfl

theorem endMark_not_mem_symbols (h : g.IsTextual) : .endMark ∉ g.symbols := by
  intro hmem
  rcases mem_symbols_iff.mp hmem with hkey | hoccurs
  · exact (h.isBracketed hkey).ne_endMark rfl
  · obtain ⟨key, e, he, hs⟩ := exists_of_mem_occurring hoccurs
    exact (h.isWritten he hs).ne_endMark rfl

theorem add (h : g.IsTextual) {rights : List Expression} (hkey : key.IsBracketed)
    (hrights : ∀ e ∈ rights, e ≠ [] ∧ ∀ s ∈ e, s.IsWritten) : (g.add key rights).IsTextual := by
  have hcases : ∀ {k : Symbol} {e : Expression}, e ∈ (g.add key rights).alternatives k →
      (∃ k, e ∈ g.alternatives k) ∨ e ∈ rights := by
    intro k e he
    rw [alternatives_add] at he
    by_cases hk : k = key
    · rw [if_pos hk, List.mem_append] at he
      exact he.imp_left fun he => ⟨key, he⟩
    · rw [if_neg hk] at he
      exact Or.inl ⟨k, he⟩
  constructor
  · exact isKey_add.mpr (Or.inl h.isKey_start)
  · intro k hk
    rcases isKey_add.mp hk with hk | rfl
    · exact h.isBracketed hk
    · exact hkey
  · intro k s e he hs
    rcases hcases he with ⟨k, he⟩ | he
    · exact h.isWritten he hs
    · exact (hrights e he).2 s hs
  · intro k e he
    rcases hcases he with ⟨k, he⟩ | he
    · exact h.ne_nil he
    · exact (hrights e he).1

theorem ofStart (h : key.IsBracketed) : (Grammar.ofStart key).IsTextual where
  isKey_start := isKey_ofStart.mpr rfl
  isBracketed hk := isKey_ofStart.mp hk ▸ h
  isWritten he := by simp [alternatives_ofStart] at he
  ne_nil he := by simp [alternatives_ofStart] at he

end Grammar.IsTextual

namespace Bnf

theorem isBracketed_of_readNonTerminal {cs rest : List Char} {s : Symbol}
    (h : readNonTerminal cs = .ok (s, rest)) : s.IsBracketed := by
  unfold readNonTerminal at h
  split at h
  · exact nomatch h
  · split at h
    · exact nomatch h
    · obtain ⟨rfl, _⟩ := Prod.mk.inj (Except.ok.inj h)
      exact ⟨_, rfl⟩

theorem isWritten_of_readLiteral {cs rest : List Char} {s : Symbol}
    (h : readLiteral cs = .ok (s, rest)) : s.IsWritten := by
  unfold readLiteral at h
  split at h
  · exact nomatch h
  · obtain ⟨rfl, _⟩ := Prod.mk.inj (Except.ok.inj h)
    exact Or.inl rfl
  · obtain ⟨rfl, _⟩ := Prod.mk.inj (Except.ok.inj h)
    exact Or.inr (Or.inr ⟨_, rfl⟩)

theorem isWritten_of_lexemes {text rest : List Char} {found : List Lexeme} {s : Symbol}
    (h : lexemes text rest = .ok found) (hs : .element s ∈ found) : s.IsWritten := by
  fun_induction lexemes text rest generalizing found with
  | case1 =>
    obtain rfl := Except.ok.inj h
    simp at hs
  | case2 c cs _ ih => exact ih h hs
  | case3 cs _ ih =>
    obtain ⟨behind, hbehind, rfl⟩ := map_eq_ok_iff.mp h
    exact ih hbehind ((List.mem_cons.mp hs).resolve_left (by simp))
  | case4 => exact nomatch h
  | case5 cs name behind hname _ _ ih =>
    obtain ⟨others, hothers, rfl⟩ := map_eq_ok_iff.mp h
    rcases List.mem_cons.mp hs with heq | hs
    · rw [Lexeme.element.inj heq]
      exact Or.inr (Or.inl (isBracketed_of_readNonTerminal hname))
    · exact ih hothers hs
  | case6 => exact nomatch h
  | case7 cs literal behind hliteral _ _ _ ih =>
    obtain ⟨others, hothers, rfl⟩ := map_eq_ok_iff.mp h
    rcases List.mem_cons.mp hs with heq | hs
    · rw [Lexeme.element.inj heq]
      exact isWritten_of_readLiteral hliteral
    · exact ih hothers hs
  | case8 => exact nomatch h

theorem element_mem_of_splitAtBars {found : List Lexeme} {e : List Symbol} {s : Symbol}
    (he : e ∈ splitAtBars found) (hs : s ∈ e) : .element s ∈ found := by
  fun_induction splitAtBars found generalizing e with
  | case1 =>
    rw [List.mem_singleton.mp he] at hs
    simp at hs
  | case2 rest ih =>
    rcases List.mem_cons.mp he with rfl | he
    · simp at hs
    · exact List.mem_cons_of_mem _ (ih he hs)
  | case3 t rest hnil => exact absurd hnil (splitAtBars_ne_nil rest)
  | case4 t rest elements others hsplit ih =>
    rw [hsplit] at ih
    rcases List.mem_cons.mp he with rfl | he
    · rcases List.mem_cons.mp hs with rfl | hs
      · exact List.mem_cons_self
      · exact List.mem_cons_of_mem _ (ih List.mem_cons_self hs)
    · exact List.mem_cons_of_mem _ (ih (List.mem_cons_of_mem _ he) hs)

/-- What is read of a right-hand text can be written. -/
theorem shape_of_readAlternatives {text : List Char} {es : List Expression}
    (h : readAlternatives text = .ok es) : ∀ e ∈ es, e ≠ [] ∧ ∀ s ∈ e, s.IsWritten := by
  obtain ⟨found, hfound, rfl⟩ := map_eq_ok_iff.mp h
  intro e he
  obtain ⟨elements, helements, rfl⟩ := List.mem_map.mp he
  cases elements with
  | nil =>
    refine ⟨List.cons_ne_nil _ _, fun s hs => Or.inl (List.mem_singleton.mp hs)⟩
  | cons t elements =>
    refine ⟨List.cons_ne_nil _ _, fun s hs => ?_⟩
    exact isWritten_of_lexemes hfound (element_mem_of_splitAtBars helements hs)

theorem isBracketed_of_readLeft {cs : List Char} {s : Symbol} (h : readLeft cs = .ok s) :
    s.IsBracketed := by
  cases cs with
  | nil => cases h
  | cons c inner =>
    simp only [readLeft] at h
    by_cases hbrackets : c = '<' ∧ inner.getLast? = some '>'
    · rw [if_pos hbrackets] at h
      by_cases hname : inner.dropLast = [] ∨ '<' ∈ inner.dropLast ∨ '>' ∈ inner.dropLast
      · rw [if_pos hname] at h
        cases h
      · rw [if_neg hname] at h
        obtain rfl := Except.ok.inj h
        exact ⟨_, rfl⟩
    · rw [if_neg hbrackets] at h
      cases h

/-- The left side and the alternatives of a definition can be written. -/
def Definition.IsWritten (d : Definition) : Prop :=
  d.left.IsBracketed ∧ ∀ e ∈ d.rights, e ≠ [] ∧ ∀ s ∈ e, s.IsWritten

theorem isWritten_of_readDefinition {previous : Option Symbol} {line : List Char} {d : Definition}
    (h : readDefinition previous line = .ok d)
    (hprevious : ∀ s, previous = some s → s.IsBracketed) : d.IsWritten := by
  unfold readDefinition at h
  split at h
  · split at h
    · exact nomatch h
    · obtain ⟨rights, hrights, rfl⟩ := map_eq_ok_iff.mp h
      exact ⟨hprevious _ rfl, shape_of_readAlternatives hrights⟩
  · split at h
    · exact nomatch h
    · rename_i before text _
      obtain ⟨left, hleft, h⟩ := bind_eq_ok_iff.mp h
      obtain ⟨rights, hrights, rfl⟩ := map_eq_ok_iff.mp h
      exact ⟨isBracketed_of_readLeft hleft, shape_of_readAlternatives hrights⟩

theorem isWritten_of_readDefinitions {number : Nat} {previous : Option Symbol}
    {lines : List (List Char)} {definitions : List Definition}
    (h : readDefinitions number previous lines = .ok definitions)
    (hprevious : ∀ s, previous = some s → s.IsBracketed) : ∀ d ∈ definitions, d.IsWritten := by
  induction lines generalizing number previous definitions with
  | nil =>
    obtain rfl := Except.ok.inj h
    simp
  | cons line lines ih =>
    unfold readDefinitions at h
    split at h
    · exact ih h hprevious
    · split at h
      · exact nomatch h
      · rename_i d hd
        have hwritten := isWritten_of_readDefinition hd hprevious
        have hleft : ∀ s, some d.left = some s → s.IsBracketed := fun s hs =>
          Option.some.inj hs ▸ hwritten.1
        obtain ⟨others, hothers, rfl⟩ := map_eq_ok_iff.mp h
        intro d' hd'
        rcases List.mem_cons.mp hd' with rfl | hd'
        · exact hwritten
        · exact ih hothers hleft d' hd'

theorem isTextual_define {g : Grammar} (hg : g.IsTextual) {definitions : List Definition}
    (h : ∀ d ∈ definitions, d.IsWritten) : (define g definitions).IsTextual := by
  induction definitions generalizing g with
  | nil => exact hg
  | cons d definitions ih =>
    rw [List.forall_mem_cons] at h
    exact ih (hg.add h.1.1 h.1.2) h.2

theorem isTextual_of_read {text : String} {g : Grammar} (h : read text = .ok g) :
    g.IsTextual := by
  unfold read at h
  obtain ⟨definitions, hread, h⟩ := bind_eq_ok_iff.mp h
  have hwritten := isWritten_of_readDefinitions hread (by simp)
  cases definitions with
  | nil => exact nomatch h
  | cons first others =>
    obtain rfl := Except.ok.inj h
    have hfirst : first.IsWritten := hwritten first List.mem_cons_self
    exact isTextual_define (Grammar.IsTextual.ofStart hfirst.1) hwritten

end Bnf
end LL1
