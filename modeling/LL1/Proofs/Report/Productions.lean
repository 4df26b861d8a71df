import LL1.Proofs.Bnf.Spelling
import LL1.Report.Productions

/-!
# Printed grammars are read as themselves

A grammar is printed with one line for each alternative, and each line says that
alternative of its key. The blanks in front of a line are trimmed, a key does not hold the
`::=` behind it, and the blanks between symbols separate elements. Only the empty string
and a key without alternatives are not printed as they are written.
-/

namespace LL1

open Text (alignRight isBlank trim IsTrimmed)

namespace Bnf

variable {before after cs text : List Char} {previous : Option Symbol} {key s : Symbol}
  {e : Expression}

/-! ## The first `::=` -/

theorem defineMark_not_infix_cons {c : Char} (h : ¬ defineMark <:+: cs) (hc : c ≠ ':') :
    ¬ defineMark <:+: c :: cs := by
  intro hwithin
  rcases List.infix_cons_iff.mp hwithin with hahead | hwithin
  · exact hc (List.cons_prefix_cons.mp hahead).1.symm
  · exact h hwithin

/-- A text that neither holds a `::=` nor ends in a part of one is what stands before the
first one. -/
theorem splitsAtDefine_append (hmark : ¬ defineMark <:+: before)
    (hlast : ∀ c ∈ before.getLast?, c ∉ defineMark) :
    SplitsAtDefine (before ++ ':' :: ':' :: '=' :: after) before after where
  eq := rfl
  first {before' after'} heq := by
    rcases List.append_eq_append_iff.mp heq with ⟨more, hmore, _⟩ | ⟨more, hmore, hrest⟩
    · rw [hmore, List.length_append]
      exact Nat.le_add_right _ _
    · -- An earlier `::=` would reach into the text or begin with its end.
      have hahead : more <+: defineMark ++ after' := ⟨_, hrest.symm⟩
      rcases List.prefix_or_prefix_of_prefix hahead (List.prefix_append _ _) with hpart | hwhole
      · cases hend : more.getLast? with
        | none =>
          rw [List.getLast?_eq_none_iff.mp hend, List.append_nil] at hmore
          exact Nat.le_of_eq (congrArg List.length hmore)
        | some c =>
          have hc : c ∈ before.getLast? := by
            rw [hmore, List.getLast?_append, hend]
            rfl
          exact absurd (hpart.subset (List.mem_of_getLast? hend)) (hlast c hc)
      · refine absurd (hwhole.isInfix.trans ?_) hmark
        rw [hmore]
        exact (List.suffix_append _ _).isInfix

/-! ## Symbols and sequences -/

theorem ElementText.isTrimmed (h : ElementText text s) : IsTrimmed text := by
  cases h with
  | nonTerminal _ => exact Text.isTrimmed_enclosed rfl rfl
  | empty =>
    have henclosed : IsTrimmed ('"' :: ([] ++ ['"'])) := Text.isTrimmed_enclosed rfl rfl
    exact henclosed
  | literal _ _ => exact Text.isTrimmed_enclosed rfl rfl

/-- A text on one line without blanks at its ends, which says a sequence when it follows a
blank. -/
structure Writes (cs : List Char) (e : Expression) : Prop where
  isTrimmed : IsTrimmed cs
  newline_not_mem : '\n' ∉ cs
  sequenceText : SequenceText (' ' :: cs) e

theorem SequenceText.spaced (h : ElementText text s) (hrest : SequenceText cs e) :
    SequenceText (' ' :: (text ++ cs)) (s :: e) := by
  have hblank : Blank [' '] := by
    intro c hc
    rw [List.mem_singleton.mp hc]
    rfl
  exact .element hblank h hrest

theorem Writes.single (h : ElementText text s) (hline : '\n' ∉ text) : Writes text [s] where
  isTrimmed := h.isTrimmed
  newline_not_mem := hline
  sequenceText := by
    have hspaced := SequenceText.spaced h (.blank blank_nil)
    rwa [List.append_nil] at hspaced

theorem Writes.cons (h : ElementText text s) (hline : '\n' ∉ text) (hrest : Writes cs e) :
    Writes (text ++ ' ' :: cs) (s :: e) where
  isTrimmed := h.isTrimmed.append hrest.isTrimmed [' ']
  newline_not_mem := by simp [hline, hrest.newline_not_mem]
  sequenceText := .spaced h hrest.sequenceText

end Bnf

theorem Symbol.toList_display_nonTerminal (name : List Char) :
    (nonTerminal (String.ofList name)).display.toList = '<' :: (name ++ ['>']) := by
  have hbracketed : (nonTerminal (String.ofList name)).IsBracketed := ⟨_, rfl⟩
  rw [display, if_neg (by simpa using hbracketed.ne_epsilon)]
  simp [nonTerminal]

theorem Symbol.toList_display_terminal (literal : List Char) :
    (terminal (String.ofList literal)).display.toList = '"' :: (literal ++ ['"']) := by
  rw [display, if_neg (by simpa using terminal_ne_epsilon (String.ofList literal))]
  simp [terminal]

/-- A symbol other than the empty string is displayed as it is written. -/
theorem Symbol.IsSpelled.elementText {s : Symbol} (h : s.IsSpelled) (hne : s ≠ epsilon) :
    Bnf.ElementText s.display.toList s ∧ '\n' ∉ s.display.toList := by
  obtain ⟨text, htext, hline⟩ := h
  have hdisplay : s.display.toList = text := by
    cases htext with
    | nonTerminal _ => exact toList_display_nonTerminal _
    | empty => exact absurd rfl hne
    | literal _ _ => exact toList_display_terminal _
  rw [hdisplay]
  exact ⟨htext, hline⟩

theorem Expression.toList_display_cons_cons (s t : Symbol) (e : Expression) :
    (display (s :: t :: e)).toList = s.display.toList ++ ' ' :: (display (t :: e)).toList := by
  simp [display, String.toList_intercalate]

/-- The expression has symbols, and each of them is displayed as it is written. -/
structure Expression.IsPlain (e : Expression) : Prop where
  ne_nil : e ≠ []
  isSpelled : ∀ s ∈ e, s.IsSpelled
  epsilon_not_mem : .epsilon ∉ e

theorem Expression.IsPlain.writes {e : Expression} (h : e.IsPlain) :
    Bnf.Writes e.display.toList e := by
  have helement : ∀ s ∈ e, Bnf.ElementText s.display.toList s ∧ '\n' ∉ s.display.toList :=
    fun s hs => (h.isSpelled s hs).elementText fun heq => h.epsilon_not_mem (heq ▸ hs)
  have hne := h.ne_nil
  clear h
  induction e with
  | nil => exact absurd rfl hne
  | cons s e ih =>
    obtain ⟨⟨htext, hline⟩, hothers⟩ := List.forall_mem_cons.mp helement
    cases e with
    | nil =>
      have hdisplay : (display [s]).toList = s.display.toList := by simp [display]
      rw [hdisplay]
      exact .single htext hline
    | cons t e =>
      rw [toList_display_cons_cons]
      exact .cons htext hline (ih hothers (List.cons_ne_nil t e))

namespace Bnf

/-! ## Lines -/

/-- A line that is split off again, and what it defines without the blanks around it. -/
structure Prints (previous : Option Symbol) (line : String) (d : Definition) : Prop where
  newline_not_mem : '\n' ∉ line.toList
  exists_last : ∃ c, line.toList.getLast? = some c ∧ isBlank c = false
  lineText : LineText previous (trim line.toList) d

variable {d : Definition} {line : String} {width : Nat}

theorem blank_replicate (n : Nat) : Blank (List.replicate n ' ') := by
  intro c hc
  rw [List.eq_of_mem_replicate hc]
  rfl

theorem prints_of_eq {n : Nat} (h : LineText previous cs d) (htrim : IsTrimmed cs)
    (hcs : '\n' ∉ cs) (heq : line.toList = List.replicate n ' ' ++ cs) :
    Prints previous line d where
  newline_not_mem := by simp [heq, hcs]
  exists_last := by
    have hlast : cs.getLast? = some (cs.getLast htrim.ne_nil) :=
      List.getLast?_eq_some_getLast htrim.ne_nil
    refine ⟨cs.getLast htrim.ne_nil, ?_, htrim.last _ hlast⟩
    rw [heq, List.getLast?_append_of_ne_nil _ htrim.ne_nil, hlast]
  lineText := by
    have hmiddle := htrim.trim_eq (blank_replicate n) blank_nil
    rw [List.append_nil] at hmiddle
    rwa [heq, hmiddle]

theorem Writes.rightText (h : Writes cs e) : RightText (' ' :: cs) [e] := .last h.sequenceText

theorem map_ofElements_singleton (hne : e ≠ []) : [e].map ofElements = [e] := by
  cases e with
  | nil => exact absurd rfl hne
  | cons s e => rfl

/-- The first line of a key. -/
theorem prints_rule (hkey : key.IsLeftSide) (he : e.IsPlain) :
    Prints previous (alignRight width key.display ++ " ::= " ++ e.display) ⟨key, [e]⟩ := by
  obtain ⟨name, hname, hline, hmark, rfl⟩ := hkey
  have hwrites := he.writes
  have hleft : IsTrimmed ('<' :: (name ++ ['>'])) := Text.isTrimmed_enclosed rfl rfl
  have hbefore : LeftText ('<' :: (name ++ ['>']) ++ [' ']) (.nonTerminal (String.ofList name)) :=
    ⟨name, hname, hleft.trim_eq blank_nil (blank_replicate 1), rfl⟩
  have hfirst : ¬ defineMark <:+: '<' :: (name ++ ['>']) ++ [' '] :=
    defineMark_not_infix_concat (defineMark_not_infix_cons
      (defineMark_not_infix_concat hmark (by decide)) (by decide)) (by decide)
  have hlast : ∀ c ∈ ('<' :: (name ++ ['>']) ++ [' ']).getLast?, c ∉ defineMark := by
    intro c hc
    rw [List.getLast?_concat] at hc
    rw [← Option.some.inj hc]
    decide
  have hsays : LineText previous _ _ :=
    .rule ⟨by simp, _, _, splitsAtDefine_append hfirst hlast, hbefore, hwrites.rightText⟩
  rw [map_ofElements_singleton he.ne_nil] at hsays
  refine prints_of_eq (n := width - (name.length + 2)) hsays ?_ ?_ ?_
  · rw [List.append_assoc]
    exact hleft.append hwrites.isTrimmed [' ', ':', ':', '=', ' ']
  · simp [hline, hwrites.newline_not_mem]
  · have hdisplay := Symbol.toList_display_nonTerminal name
    simp [Text.toList_alignRight, hdisplay, ← String.length_toList]

/-- A further line, which has a bar for the key. -/
theorem prints_continuation (he : e.IsPlain) :
    Prints (some key) (alignRight width "" ++ "   | " ++ e.display) ⟨key, [e]⟩ := by
  have hwrites := he.writes
  have hsays : LineText (some key) _ _ := .continuation rfl ⟨_, rfl, hwrites.rightText⟩
  rw [map_ofElements_singleton he.ne_nil] at hsays
  have hbar : IsTrimmed ['|'] := ⟨List.cons_ne_nil _ _, by simp; rfl, by simp; rfl⟩
  refine prints_of_eq (n := width + 3) hsays (hbar.append hwrites.isTrimmed [' ']) ?_ ?_
  · simp [hwrites.newline_not_mem]
  · rw [List.replicate_add]
    simp [Text.toList_alignRight, List.replicate_succ]

/-! ## Texts -/

/-- Lines that print definitions one after the other. -/
inductive PrintsAll : Option Symbol → List String → List Definition → Prop
  | nil {previous : Option Symbol} : PrintsAll previous [] []
  | cons {previous : Option Symbol} {line : String} {lines : List String} {d : Definition}
    {definitions : List Definition} (hline : Prints previous line d)
    (hlines : PrintsAll (some d.left) lines definitions) :
    PrintsAll previous (line :: lines) (d :: definitions)

section PrintsAll

variable {lines : List String} {definitions : List Definition} {es : List Expression}

theorem PrintsAll.linesText (h : PrintsAll previous lines definitions) :
    LinesText previous (filledLines (lines.map String.toList)) definitions := by
  induction h with
  | nil => exact .nil
  | cons hline _ ih =>
    obtain ⟨c, hlast, hc⟩ := hline.exists_last
    have hne : trim _ ≠ [] := fun hnil =>
      absurd (Text.trim_eq_nil_iff.mp hnil c (List.mem_of_getLast? hlast)) (by simp [hc])
    rw [List.map_cons, filledLines_of_trim_ne_nil hne]
    exact .cons hline.lineText ih

theorem PrintsAll.splits (h : PrintsAll previous lines definitions) :
    ∀ line ∈ lines.map String.toList,
      line ≠ [] ∧ '\n' ∉ line ∧ line.getLast? ≠ some '\r' := by
  induction h with
  | nil => simp
  | cons hline _ ih =>
    obtain ⟨c, hlast, hc⟩ := hline.exists_last
    refine List.forall_mem_cons.mpr ⟨⟨?_, hline.newline_not_mem, ?_⟩, ih⟩
    · intro hnil
      rw [hnil] at hlast
      cases hlast
    · intro hreturn
      rw [hlast] at hreturn
      rw [Option.some.inj hreturn] at hc
      exact absurd hc (by decide)

theorem PrintsAll.read {g : Grammar} (h : PrintsAll none lines definitions)
    (hg : Describes definitions g) : Bnf.read ("\n".intercalate lines) = .ok g := by
  have hlines : Text.lines ("\n".intercalate lines).toList = lines.map String.toList := by
    rw [String.toList_intercalate]
    exact Text.lines_intercalate h.splits
  refine read_eq_ok_iff.mpr ⟨definitions, ?_, hg⟩
  rw [hlines]
  exact h.linesText

theorem PrintsAll.continuations (hes : ∀ e ∈ es, e.IsPlain)
    (h : PrintsAll (some key) lines definitions) :
    PrintsAll (some key)
      ((es.map Expression.display).map (fun right => alignRight width "" ++ "   | " ++ right) ++
        lines)
      (es.map (fun e => ⟨key, [e]⟩) ++ definitions) := by
  induction es with
  | nil => exact h
  | cons e es ih =>
    obtain ⟨he, hes⟩ := List.forall_mem_cons.mp hes
    exact .cons (prints_continuation he) (ih hes)

/-- The lines of a key print its alternatives. -/
theorem PrintsAll.plainLines (hkey : key.IsLeftSide) (hne : es ≠ [])
    (hes : ∀ e ∈ es, e.IsPlain) (h : PrintsAll (some key) lines definitions) :
    PrintsAll previous
      (Report.Productions.plainLines width key.display (es.map Expression.display) ++ lines)
      (es.map (fun e => ⟨key, [e]⟩) ++ definitions) := by
  cases es with
  | nil => exact absurd rfl hne
  | cons e es =>
    obtain ⟨he, hes⟩ := List.forall_mem_cons.mp hes
    exact .cons (prints_rule hkey he) (h.continuations hes)

theorem printsAll_flatMap (width : Nat) {entries : List (Symbol × List Expression)}
    (h : ∀ entry ∈ entries, entry.1.IsLeftSide ∧ entry.2 ≠ [] ∧ ∀ e ∈ entry.2, e.IsPlain) :
    PrintsAll previous
      (entries.flatMap fun entry =>
        Report.Productions.plainLines width entry.1.display (entry.2.map Expression.display))
      (entries.flatMap fun entry => entry.2.map fun e => ⟨entry.1, [e]⟩) := by
  -- Only the first line of a key is free of the line before it, so that line is not fixed.
  induction entries generalizing previous with
  | nil => exact .nil
  | cons entry entries ih =>
    obtain ⟨⟨hkey, hne, hes⟩, hothers⟩ := List.forall_mem_cons.mp h
    rw [List.flatMap_cons, List.flatMap_cons]
    exact (ih hothers).plainLines hkey hne hes

end PrintsAll

/-- The rules of a grammar describe it, unless a key has none. -/
theorem describes_ruleList {g : Grammar} (hstart : g.keys.head? = some g.start)
    (hrules : ∀ key, g.isKey key → g.alternatives key ≠ []) :
    Describes (g.ruleList.map fun rule => ⟨rule.left, [rule.right]⟩) g where
  start := by
    rw [← hstart, ← Grammar.eraseDups_left_ruleList hrules]
    cases g.ruleList with
    | nil => rfl
    | cons rule rules =>
      rw [List.map_cons, List.map_cons, List.eraseDups_cons]
      rfl
  keys := by
    rw [List.map_map]
    exact (Grammar.eraseDups_left_ruleList hrules).symm
  alternatives key := by
    rw [List.filter_map, List.flatMap_map]
    show g.alternatives key = (g.ruleList.filter (·.left = key)).flatMap fun rule => [rule.right]
    rw [g.filter_ruleList, List.flatMap_map]
    exact (List.flatMap_singleton' _).symm

end Bnf

namespace Grammar

variable {g : Grammar}

/-- A grammar whose keys all have alternatives, none of them with the empty string, is
printed as a text that is read as this grammar. -/
theorem IsPrepared.read_productions (h : g.IsPrepared)
    (hrules : ∀ key, g.isKey key → g.alternatives key ≠ [])
    (hfree : ∀ key, ∀ e ∈ g.alternatives key, Symbol.epsilon ∉ e) :
    Bnf.read (Report.productions .plain g) = .ok g := by
  have hspelled := h.isSpelled
  have hentries : ∀ entry ∈ g.rules.entries,
      entry.1.IsLeftSide ∧ entry.2 ≠ [] ∧ ∀ e ∈ entry.2, e.IsPlain := by
    intro entry hentry
    rw [entries_eq] at hentry
    obtain ⟨key, hkey, rfl⟩ := List.mem_map.mp hentry
    have hkey := mem_keys.mp hkey
    refine ⟨hspelled.isLeftSide hkey, hrules key hkey, fun e he => ?_⟩
    exact ⟨h.isTextual.ne_nil he, fun s => hspelled.isSpelled he, hfree key e he⟩
  have hprints : Bnf.PrintsAll none _ _ :=
    Bnf.printsAll_flatMap (Text.maxWidth (g.keys.map Symbol.display)) hentries
  have hdescribes := Bnf.describes_ruleList hspelled.head?_keys hrules
  rw [ruleList, List.map_flatMap] at hdescribes
  simp only [List.map_map] at hdescribes
  exact hprints.read hdescribes

/-- Delimiters of every kind stand in names and literals, and one alternative is only its
key. -/
def delimitersText : String :=
  "<a|b> ::= <c::=d> \"::=\" | \"x y\"\n| <a|b>\n\n< \" > ::= \"<\" <a|b>"

/-- The elimination takes that alternative off. -/
theorem read_productions_delimiters :
    ∃ g, Bnf.read delimitersText = .ok g ∧ g.isLeftRecursive ∧
      Bnf.read (Report.productions .plain g.withoutLeftRecursion) = .ok g.withoutLeftRecursion := by
  have heval : (Bnf.read delimitersText).map (fun g => decide (g.isLeftRecursive ∧
      (∀ key ∈ g.withoutLeftRecursion.keys, g.withoutLeftRecursion.alternatives key ≠ []) ∧
      ∀ key ∈ g.withoutLeftRecursion.keys, ∀ e ∈ g.withoutLeftRecursion.alternatives key,
        Symbol.epsilon ∉ e)) = .ok true := by
    decide +kernel
  obtain ⟨g, hread, hg⟩ := map_eq_ok_iff.mp heval
  obtain ⟨hrec, hrules, hfree⟩ := of_decide_eq_true hg
  refine ⟨g, hread, hrec, (IsPrepared.eliminated (.read hread)).read_productions ?_ ?_⟩
  · exact fun key hkey => hrules key (mem_keys.mpr hkey)
  · exact fun key e he => hfree key (mem_keys.mpr (isKey_of_mem_alternatives he)) e he

end Grammar

end LL1
