import LL1.Proofs.Report.Productions

/-!
# Names on both sides

A name that can be used in an alternative can also stand on a left side, unless it holds a
`::=`: a line is split at its first `::=` without a look at the brackets around it, so that
such a name is used but never defined.
-/

namespace LL1
namespace Bnf

variable {key s : Symbol} {e : Expression} {name : String}

/-- The text between the brackets is read as a nonterminal of an alternative. -/
def Usable (name : String) : Prop :=
  ∃ g, read ("<S> ::= <" ++ name ++ ">") = .ok g ∧
    g.alternatives (.nonTerminal "S") = [[.nonTerminal name]]

/-- The text between the brackets is read as the nonterminal of a left side. -/
def Definable (name : String) : Prop :=
  ∃ g, read ("<" ++ name ++ "> ::= \"a\"") = .ok g ∧ g.start = .nonTerminal name ∧
    g.keys = [.nonTerminal name]

theorem toList_nonTerminal (name : String) :
    (Symbol.nonTerminal name).content.toList = '<' :: (name.toList ++ ['>']) := by
  simp [Symbol.nonTerminal]

theorem nonTerminal_inj {name' : String} (h : Symbol.nonTerminal name = .nonTerminal name') :
    name = name' := by
  have hlist := congrArg (fun s : Symbol => s.content.toList) h
  simp only [toList_nonTerminal, List.cons.injEq, true_and, List.append_left_inj] at hlist
  exact String.ext hlist

theorem isBracketed_nonTerminal (name : String) : (Symbol.nonTerminal name).IsBracketed :=
  ⟨name, rfl⟩

theorem display_nonTerminal (name : String) :
    (Symbol.nonTerminal name).display = "<" ++ name ++ ">" := by
  rw [Symbol.display, if_neg (by simpa using (isBracketed_nonTerminal name).ne_epsilon)]
  rfl

/-- What is spelled as a nonterminal has a name. -/
theorem isName_of_isSpelled (h : (Symbol.nonTerminal name).IsSpelled) : IsName name.toList := by
  obtain ⟨text, htext, _⟩ := h
  have hbracketed := isBracketed_nonTerminal name
  generalize hs : Symbol.nonTerminal name = s at htext hbracketed
  cases htext with
  | nonTerminal hname =>
    rw [nonTerminal_inj hs, String.toList_ofList]
    exact hname
  | empty => exact absurd rfl hbracketed.ne_epsilon
  | literal _ _ => exact absurd rfl (hbracketed.ne_terminal _)

/-- A single rule is read as the grammar that consists of it. -/
theorem read_rule (hkey : key.IsLeftSide) (he : e.IsPlain) :
    ∃ g, read (key.display ++ " ::= " ++ e.display) = .ok g ∧ g.start = key ∧ g.keys = [key] ∧
      g.alternatives key = [e] := by
  have hdescribes := describes_define ⟨key, [e]⟩ []
  have haligned : Text.alignRight 0 key.display = key.display := by
    apply String.ext
    simp [Text.toList_alignRight]
  have hline : Prints none (Text.alignRight 0 key.display ++ " ::= " ++ e.display) ⟨key, [e]⟩ :=
    prints_rule hkey he
  rw [haligned] at hline
  have hlines : PrintsAll none [key.display ++ " ::= " ++ e.display] [⟨key, [e]⟩] :=
    .cons hline .nil
  refine ⟨_, ?_, (Option.some.inj hdescribes.start).symm, ?_, ?_⟩
  · simpa using hlines.read hdescribes
  · rw [hdescribes.keys]
    rfl
  · rw [hdescribes.alternatives]
    simp

theorem isPlain_singleton (h : s.IsSpelled) (hne : s ≠ .epsilon) : Expression.IsPlain [s] where
  ne_nil := List.cons_ne_nil s []
  isSpelled := by simpa using h
  epsilon_not_mem := by simpa using hne.symm

theorem usable_iff (h : '\n' ∉ name.toList) : Usable name ↔ IsName name.toList := by
  constructor
  · rintro ⟨g, hread, halternatives⟩
    refine isName_of_isSpelled ((isSpelled_of_read hread).isSpelled
      (halternatives ▸ List.mem_singleton_self _) (List.mem_singleton_self _))
  · intro hname
    have hspelled : (Symbol.nonTerminal name).IsSpelled := by
      refine ⟨'<' :: (name.toList ++ ['>']), ?_, by simp [h]⟩
      have helement := ElementText.nonTerminal hname
      rwa [String.ofList_toList] at helement
    have hleft : (Symbol.nonTerminal "S").IsLeftSide :=
      ⟨['S'], ⟨by simp, by simp, by simp⟩, by simp, by decide, rfl⟩
    obtain ⟨g, hread, _, _, halternatives⟩ :=
      read_rule hleft (isPlain_singleton hspelled (isBracketed_nonTerminal name).ne_epsilon)
    have htext : (Symbol.nonTerminal "S").display ++ " ::= " ++
        Expression.display [.nonTerminal name] = "<S> ::= <" ++ name ++ ">" := by
      apply String.ext
      simp [display_nonTerminal, Expression.display]
    rw [htext] at hread
    exact ⟨g, hread, halternatives⟩

theorem definable_iff (h : '\n' ∉ name.toList) :
    Definable name ↔ IsName name.toList ∧ ¬ defineMark <:+: name.toList := by
  constructor
  · rintro ⟨g, hread, hstart, _⟩
    have hkey := (Bnf.isTextual_of_read hread).isKey_start
    obtain ⟨chars, hname, _, hmark, heq⟩ := (isSpelled_of_read hread).isLeftSide hkey
    rw [hstart] at heq
    rw [nonTerminal_inj heq, String.toList_ofList]
    exact ⟨hname, hmark⟩
  · rintro ⟨hname, hmark⟩
    have hleft : (Symbol.nonTerminal name).IsLeftSide :=
      ⟨name.toList, hname, h, hmark, by rw [String.ofList_toList]⟩
    have hliteral : (Symbol.terminal "a").IsSpelled :=
      ⟨['"', 'a', '"'], .literal (List.cons_ne_nil 'a' []) (by simp), by simp⟩
    obtain ⟨g, hread, hstart, hkeys, _⟩ :=
      read_rule hleft (isPlain_singleton hliteral (Symbol.terminal_ne_epsilon "a"))
    have htext : (Symbol.nonTerminal name).display ++ " ::= " ++
        Expression.display [.terminal "a"] = "<" ++ name ++ "> ::= \"a\"" := by
      apply String.ext
      simp [display_nonTerminal, Expression.display, Symbol.toList_display_terminal ['a']]
    rw [htext] at hread
    exact ⟨g, hread, hstart, hkeys⟩

/-- A name that can be defined can be used. The other way round this holds of exactly those
names without a `::=`. -/
theorem definable_iff_usable (h : '\n' ∉ name.toList) :
    (Usable name ↔ IsName name.toList) ∧
      (Definable name ↔ Usable name ∧ ¬ defineMark <:+: name.toList) := by
  rw [usable_iff h]
  exact ⟨Iff.rfl, definable_iff h⟩

/-- The name holds all delimiters that a name can hold, and parts of a `::=`. -/
theorem definable_delimiters :
    '\n' ∉ " |\":: =".toList ∧ Usable " |\":: =" ∧ Definable " |\":: =" := by
  have hline : '\n' ∉ " |\":: =".toList := by decide +kernel
  obtain ⟨husable, hdefinable⟩ := definable_iff_usable hline
  have hused : Usable " |\":: =" :=
    husable.mpr ⟨by decide +kernel, by decide +kernel, by decide +kernel⟩
  exact ⟨hline, hused, hdefinable.mpr ⟨hused, by decide +kernel⟩⟩

/-- The name ends for its left side before the `::=` in it. -/
theorem not_usable_iff_definable :
    '\n' ∉ "a::=b".toList ∧ ¬ (Usable "a::=b" ↔ Definable "a::=b") := by
  have hline : '\n' ∉ "a::=b".toList := by decide +kernel
  refine ⟨hline, fun h => ?_⟩
  have hused : Usable "a::=b" :=
    (usable_iff hline).mpr ⟨by decide +kernel, by decide +kernel, by decide +kernel⟩
  obtain ⟨_, hmark⟩ := (definable_iff hline).mp (h.mp hused)
  exact hmark (by decide +kernel)

end Bnf
end LL1
