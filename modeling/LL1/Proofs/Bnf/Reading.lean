import LL1.Bnf.Document
import LL1.Proofs.Bnf.RightHand
import LL1.Proofs.Grammar
import Mathlib.Data.List.Basic
import Mathlib.Data.List.Induction

/-!
# What a grammar text says

A grammar text is a list of lines that define alternatives: a line names the left side,
or it starts with a bar and has the left side of the line before it. The left sides in
order of first occurrence are the keys, and a key has the alternatives of all its lines.
This determines a grammar, and a text is read if and only if it says one, as that one.
-/

namespace LL1
namespace Bnf

open Text (trim)

/-- The text is split at its first `::=`. -/
structure SplitsAtDefine (line before after : List Char) : Prop where
  eq : line = before ++ ':' :: ':' :: '=' :: after
  first {before' after' : List Char} :
    line = before' ++ ':' :: ':' :: '=' :: after' → before.length ≤ before'.length

/-- A single nonterminal with blanks around it. -/
def LeftText (cs : List Char) (left : Symbol) : Prop :=
  ∃ name, IsName name ∧ trim cs = '<' :: (name ++ ['>']) ∧
    left = .nonTerminal (String.ofList name)

/-- A bar and more sequences for the left side of the line before. -/
def ContinuationText (line : List Char) (sequences : List (List Symbol)) : Prop :=
  ∃ text, line = '|' :: text ∧ RightText text sequences

/-- A left side and the sequences that it stands for. -/
def RuleText (line : List Char) (left : Symbol) (sequences : List (List Symbol)) : Prop :=
  line.head? ≠ some '|' ∧ ∃ before text, SplitsAtDefine line before text ∧
    LeftText before left ∧ RightText text sequences

/-- What a line defines. `previous` is the left side of the line before it. -/
inductive LineText (previous : Option Symbol) (line : List Char) : Definition → Prop
  | continuation {left : Symbol} {sequences : List (List Symbol)} (hprevious : previous = some left)
    (h : ContinuationText line sequences) : LineText previous line ⟨left, sequences.map ofElements⟩
  | rule {left : Symbol} {sequences : List (List Symbol)} (h : RuleText line left sequences) :
    LineText previous line ⟨left, sequences.map ofElements⟩

/-- What the lines of a text define one after the other. -/
inductive LinesText : Option Symbol → List (List Char) → List Definition → Prop
  | nil {previous : Option Symbol} : LinesText previous [] []
  | cons {previous : Option Symbol} {line : List Char} {lines : List (List Char)} {d : Definition}
    {definitions : List Definition} (hline : LineText previous line d)
    (hlines : LinesText (some d.left) lines definitions) :
    LinesText previous (line :: lines) (d :: definitions)

/-- The grammar that definitions describe. -/
structure Describes (definitions : List Definition) (g : Grammar) : Prop where
  start : definitions.head?.map Definition.left = some g.start
  keys : g.keys = (definitions.map Definition.left).eraseDups
  alternatives (key : Symbol) :
    g.alternatives key = (definitions.filter (·.left = key)).flatMap Definition.rights

/-- The lines that hold something, without the blanks around it. -/
def filledLines (lines : List (List Char)) : List (List Char) :=
  (lines.map trim).filter fun line => line ≠ []

variable {cs line before after : List Char} {previous : Option Symbol} {s : Symbol}
  {d : Definition} {definitions : List Definition} {lines : List (List Char)} {number : Nat}

/-! ## Lines -/

theorem splitDefine_ne_none (h : line = before ++ ':' :: ':' :: '=' :: after) :
    splitDefine line ≠ none := by
  fun_induction splitDefine line generalizing before with
  | case1 => exact absurd h.symm (List.append_ne_nil_of_right_ne_nil _ (List.cons_ne_nil _ _))
  | case2 cs => exact nofun
  | case3 c cs hne ih =>
    cases before with
    | nil =>
      obtain ⟨hc, hcs⟩ := List.cons_eq_cons.mp h
      exact absurd hcs (hne after hc)
    | cons b before =>
      rw [ne_eq, Option.map_eq_none_iff]
      exact ih (List.cons_eq_cons.mp h).2

theorem splitsAtDefine_of_splitDefine (h : splitDefine line = some (before, after)) :
    SplitsAtDefine line before after := by
  fun_induction splitDefine line generalizing before with
  | case1 => exact nomatch h
  | case2 cs =>
    obtain ⟨rfl, rfl⟩ := Prod.mk.inj (Option.some.inj h)
    exact ⟨rfl, fun _ => Nat.zero_le _⟩
  | case3 c cs hne ih =>
    obtain ⟨⟨x, y⟩, hfound, heq⟩ := Option.map_eq_some_iff.mp h
    obtain ⟨rfl, rfl⟩ := Prod.mk.inj heq
    have hsplit := ih hfound
    refine ⟨congrArg (c :: ·) hsplit.eq, fun {before' after'} heq => ?_⟩
    cases before' with
    | nil =>
      obtain ⟨hc, hcs⟩ := List.cons_eq_cons.mp heq
      exact absurd hcs (hne after' hc)
    | cons b before' => exact Nat.succ_le_succ (hsplit.first (List.cons_eq_cons.mp heq).2)

/-- There is only one first `::=`. -/
theorem splitDefine_eq_some_iff :
    splitDefine line = some (before, after) ↔ SplitsAtDefine line before after := by
  refine ⟨splitsAtDefine_of_splitDefine, fun h => ?_⟩
  cases hfound : splitDefine line with
  | none => exact absurd hfound (splitDefine_ne_none h.eq)
  | some found =>
    obtain ⟨before', after'⟩ := found
    have h' := splitsAtDefine_of_splitDefine hfound
    have hlength : before'.length = before.length := Nat.le_antisymm (h'.first h.eq) (h.first h'.eq)
    obtain ⟨rfl, hafter⟩ := List.append_inj (h'.eq.symm.trans h.eq) hlength
    simp only [List.cons.injEq, true_and] at hafter
    rw [hafter]

theorem readLeft_eq_ok_iff : readLeft (trim cs) = .ok s ↔ LeftText cs s := by
  unfold LeftText
  generalize trim cs = ds
  constructor
  · intro h
    cases ds with
    | nil => cases h
    | cons c inner =>
      simp only [readLeft] at h
      by_cases hbrackets : c = '<' ∧ inner.getLast? = some '>'
      · rw [if_pos hbrackets] at h
        by_cases hname : inner.dropLast = [] ∨ '<' ∈ inner.dropLast ∨ '>' ∈ inner.dropLast
        · rw [if_pos hname] at h
          cases h
        · rw [if_neg hname] at h
          rw [not_or, not_or] at hname
          have hinner : inner.dropLast ++ ['>'] = inner :=
            List.dropLast_append_getLast? '>' hbrackets.2
          refine ⟨inner.dropLast, ⟨hname.1, hname.2.1, hname.2.2⟩, ?_, (Except.ok.inj h).symm⟩
          rw [hinner, hbrackets.1]
      · rw [if_neg hbrackets] at h
        cases h
  · intro h
    obtain ⟨name, hname, rfl, rfl⟩ := h
    have hnot : ¬ (name = [] ∨ '<' ∈ name ∨ '>' ∈ name) := by
      rw [not_or, not_or]
      exact ⟨hname.ne_nil, hname.opening_not_mem, hname.closing_not_mem⟩
    unfold readLeft
    simp only [List.dropLast_concat]
    rw [if_pos ⟨trivial, List.getLast?_concat⟩, if_neg hnot]

theorem readDefinition_eq_ok_iff :
    readDefinition previous line = .ok d ↔ LineText previous line d := by
  constructor
  · intro h
    unfold readDefinition at h
    split at h
    · rename_i text
      cases previous with
      | none => exact nomatch h
      | some left =>
        obtain ⟨rights, hrights, rfl⟩ := map_eq_ok_iff.mp h
        obtain ⟨sequences, hsequences, rfl⟩ := readAlternatives_eq_ok_iff.mp hrights
        exact .continuation rfl ⟨text, rfl, hsequences⟩
    · rename_i hbar
      split at h
      · exact nomatch h
      · rename_i before text hsplit
        obtain ⟨left, hleft, h⟩ := bind_eq_ok_iff.mp h
        obtain ⟨rights, hrights, rfl⟩ := map_eq_ok_iff.mp h
        obtain ⟨sequences, hsequences, rfl⟩ := readAlternatives_eq_ok_iff.mp hrights
        refine .rule ⟨?_, before, text, splitDefine_eq_some_iff.mp hsplit,
          readLeft_eq_ok_iff.mp hleft, hsequences⟩
        intro hhead
        obtain ⟨text, rfl⟩ := List.head?_eq_some_iff.mp hhead
        exact hbar text rfl
  · intro h
    cases h with
    | continuation hprevious h =>
      obtain ⟨text, rfl, hsequences⟩ := h
      rw [hprevious]
      exact map_eq_ok_iff.mpr ⟨_, readAlternatives_eq_ok_iff.mpr ⟨_, hsequences, rfl⟩, rfl⟩
    | rule h =>
      obtain ⟨hbar, before, text, hsplit, hleft, hsequences⟩ := h
      unfold readDefinition
      split
      · exact absurd rfl hbar
      · rw [splitDefine_eq_some_iff.mpr hsplit]
        exact bind_eq_ok_iff.mpr ⟨_, readLeft_eq_ok_iff.mpr hleft,
          map_eq_ok_iff.mpr ⟨_, readAlternatives_eq_ok_iff.mpr ⟨_, hsequences, rfl⟩, rfl⟩⟩

/-! ## Texts -/

theorem filledLines_of_trim_eq_nil (h : trim line = []) :
    filledLines (line :: lines) = filledLines lines := by
  rw [filledLines, List.map_cons, h]
  exact List.filter_cons_of_neg (by simp)

theorem filledLines_of_trim_ne_nil (h : trim line ≠ []) :
    filledLines (line :: lines) = trim line :: filledLines lines := by
  rw [filledLines, List.map_cons]
  exact List.filter_cons_of_pos (decide_eq_true h)

theorem readDefinitions_eq_ok_iff :
    readDefinitions number previous lines = .ok definitions ↔
      LinesText previous (filledLines lines) definitions := by
  induction lines generalizing number previous definitions with
  | nil =>
    constructor
    · intro h
      obtain rfl := Except.ok.inj h
      exact .nil
    · intro h
      cases h with
      | nil => rfl
  | cons line lines ih =>
    unfold readDefinitions
    cases htrim : trim line with
    | nil =>
      rw [filledLines_of_trim_eq_nil htrim]
      exact ih
    | cons c cs =>
      rw [filledLines_of_trim_ne_nil (htrim ▸ List.cons_ne_nil c cs), htrim]
      constructor
      · intro h
        cases hd : readDefinition previous (c :: cs) with
        | error fault =>
          simp only [hd] at h
          exact nomatch h
        | ok d =>
          simp only [hd] at h
          obtain ⟨others, hothers, rfl⟩ := map_eq_ok_iff.mp h
          exact .cons (readDefinition_eq_ok_iff.mp hd) (ih.mp hothers)
      · intro h
        cases h with
        | @cons _ _ _ d others hline hlines =>
          simp only [readDefinition_eq_ok_iff.mpr hline]
          exact map_eq_ok_iff.mpr ⟨others, ih.mpr hlines, rfl⟩

theorem LinesText.eq_nil_iff (h : LinesText previous lines definitions) :
    definitions = [] ↔ lines = [] := by
  cases h with
  | nil => exact iff_of_true rfl rfl
  | cons => exact iff_of_false nofun nofun

/-- Which texts say something can be seen line by line: only the first line is asked
whether there is a line before it. -/
theorem exists_linesText_iff : (∃ definitions, LinesText previous lines definitions) ↔
    ∀ i line, lines[i]? = some line →
      ((previous.isSome ∨ 0 < i) ∧ ∃ sequences, ContinuationText line sequences) ∨
        ∃ left sequences, RuleText line left sequences := by
  -- Behind the first line there always is a left side, whatever `previous` is.
  induction lines generalizing previous with
  | nil => exact iff_of_true ⟨[], .nil⟩ fun _ _ h => nomatch h
  | cons first lines ih =>
    constructor
    · intro h i line hline
      obtain ⟨_, _ | ⟨hfirst, hlines⟩⟩ := h
      cases i with
      | zero =>
        obtain rfl := Option.some.inj hline
        cases hfirst with
        | continuation hprevious h =>
          rw [hprevious]
          exact Or.inl ⟨Or.inl rfl, _, h⟩
        | rule h => exact Or.inr ⟨_, _, h⟩
      | succ i =>
        refine (ih.mp ⟨_, hlines⟩ i line hline).imp_left fun h => ?_
        exact ⟨Or.inr (Nat.succ_pos i), h.2⟩
    · intro h
      have hfirst : ∃ d, LineText previous first d := by
        rcases h 0 first rfl with ⟨hprevious, sequences, h⟩ | ⟨left, sequences, h⟩
        · obtain ⟨left, hleft⟩ := Option.isSome_iff_exists.mp
            (hprevious.resolve_right (Nat.lt_irrefl 0))
          exact ⟨_, .continuation hleft h⟩
        · exact ⟨_, .rule h⟩
      obtain ⟨d, hd⟩ := hfirst
      have hlines : ∃ definitions, LinesText (some d.left) lines definitions := by
        refine ih.mpr fun i line hline => ?_
        refine (h (i + 1) line hline).imp_left fun h => ?_
        exact ⟨Or.inl rfl, h.2⟩
      obtain ⟨definitions, hdefinitions⟩ := hlines
      exact ⟨d :: definitions, .cons hd hdefinitions⟩

/-! ## Grammars -/

theorem define_concat (g : Grammar) (definitions : List Definition) (d : Definition) :
    define g (definitions ++ [d]) = (define g definitions).add d.left d.rights := by
  unfold define
  rw [List.foldl_append]
  rfl

theorem start_define (g : Grammar) (definitions : List Definition) :
    (define g definitions).start = g.start := by
  induction definitions using List.reverseRecOn with
  | nil => rfl
  | append_singleton definitions d ih =>
    rw [define_concat]
    exact ih

theorem alternatives_define (g : Grammar) (definitions : List Definition) (key : Symbol) :
    (define g definitions).alternatives key =
      g.alternatives key ++ (definitions.filter (·.left = key)).flatMap Definition.rights := by
  induction definitions using List.reverseRecOn with
  | nil => exact (List.append_nil _).symm
  | append_singleton definitions d ih =>
    rw [define_concat, Grammar.alternatives_add, List.filter_append, List.flatMap_append]
    by_cases hd : key = d.left
    · rw [if_pos hd, ← hd, ih, List.filter_cons_of_pos (by simp [hd]), List.append_assoc]
      simp
    · rw [if_neg hd, ih, List.filter_cons_of_neg (by simp [Ne.symm hd])]
      simp

/-- Only a first occurrence stays. -/
theorem eraseDups_concat (symbols : List Symbol) (s : Symbol) :
    (symbols ++ [s]).eraseDups =
      if s ∈ symbols.eraseDups then symbols.eraseDups else symbols.eraseDups ++ [s] := by
  rw [List.eraseDups_append]
  by_cases h : s ∈ symbols
  · have hremove : [s].removeAll symbols = [] := by simp [List.removeAll, h]
    rw [if_pos (List.mem_eraseDups.mpr h), hremove, List.eraseDups_nil, List.append_nil]
  · have hremove : [s].removeAll symbols = [s] := by simp [List.removeAll, h]
    rw [if_neg fun hmem => h (List.mem_eraseDups.mp hmem), hremove]
    rfl

/-- The keys are the left sides in order of first occurrence. -/
theorem keys_define (start : Symbol) (definitions : List Definition) :
    (define (.ofStart start) definitions).keys =
      (start :: definitions.map Definition.left).eraseDups := by
  -- A new key is the last one, so the last definition is taken off.
  induction definitions using List.reverseRecOn with
  | nil => rfl
  | append_singleton definitions d ih =>
    rw [define_concat, Grammar.keys_add, ih, List.map_append, ← List.cons_append]
    exact (eraseDups_concat _ d.left).symm

/-- Definitions describe the grammar that they are collected to. -/
theorem describes_define (first : Definition) (others : List Definition) :
    Describes (first :: others) (define (.ofStart first.left) (first :: others)) where
  start := congrArg some (start_define (.ofStart first.left) (first :: others)).symm
  keys := by
    have hfirst : (first.left :: first.left :: others.map Definition.left).eraseDups =
        (first.left :: others.map Definition.left).eraseDups := by
      rw [List.eraseDups_cons, List.filter_cons_of_neg (by simp), ← List.eraseDups_cons]
    rw [keys_define, List.map_cons]
    exact hfirst
  alternatives key := by
    rw [alternatives_define, Grammar.alternatives_ofStart, List.nil_append]

/-- Definitions describe at most one grammar. -/
theorem Describes.unique {g h : Grammar} (hg : Describes definitions g)
    (hh : Describes definitions h) : g = h := by
  have hstart : g.start = h.start := Option.some.inj (hg.start.symm.trans hh.start)
  have hrules : g.rules = h.rules := by
    apply OrderedMap.ext
    rw [g.entries_eq, h.entries_eq, hg.keys, hh.keys]
    simp only [hg.alternatives, hh.alternatives]
  obtain ⟨rules, start⟩ := g
  obtain ⟨rules', start'⟩ := h
  obtain rfl : rules = rules' := hrules
  obtain rfl : start = start' := hstart
  rfl

theorem read_eq_ok_iff {text : String} {g : Grammar} : read text = .ok g ↔
    ∃ definitions, LinesText none (filledLines (Text.lines text.toList)) definitions ∧
      Describes definitions g := by
  have hread : ∀ definitions, readDefinitions 1 none (Text.lines text.toList) = .ok definitions ↔
      LinesText none (filledLines (Text.lines text.toList)) definitions :=
    fun _ => readDefinitions_eq_ok_iff
  unfold read
  rw [bind_eq_ok_iff]
  refine exists_congr fun definitions => and_congr (hread definitions) ?_
  cases definitions with
  | nil => exact iff_of_false nofun fun h => nomatch h.start
  | cons first others =>
    have hdefine := describes_define first others
    constructor
    · intro h
      rw [← Except.ok.inj h]
      exact hdefine
    · exact fun h => congrArg Except.ok (hdefine.unique h)

theorem exists_describes_iff : (∃ g, Describes definitions g) ↔ definitions ≠ [] := by
  cases definitions with
  | nil => exact iff_of_false (fun h => nomatch h.choose_spec.start) fun h => h rfl
  | cons first others => exact iff_of_true ⟨_, describes_define first others⟩ nofun

/-- A text is read if and only if it has a line that is not blank and each such line is a
rule or continues one before it. The grammar that is read is then the one that the lines
describe. -/
theorem read_isExact (text : String) :
    ((∃ g, read text = .ok g) ↔
      filledLines (Text.lines text.toList) ≠ [] ∧
      ∀ i line, (filledLines (Text.lines text.toList))[i]? = some line →
        (0 < i ∧ ∃ sequences, ContinuationText line sequences) ∨
          ∃ left sequences, RuleText line left sequences) ∧
    ∀ g, read text = .ok g ↔
      ∃ definitions, LinesText none (filledLines (Text.lines text.toList)) definitions ∧
        Describes definitions g := by
  refine ⟨?_, fun g => read_eq_ok_iff⟩
  simp only [read_eq_ok_iff]
  generalize filledLines (Text.lines text.toList) = lines
  have hsays : (∃ definitions, LinesText none lines definitions) ↔ ∀ i line,
      lines[i]? = some line → (0 < i ∧ ∃ sequences, ContinuationText line sequences) ∨
        ∃ left sequences, RuleText line left sequences := by
    rw [exists_linesText_iff]
    simp only [Option.isSome_none, Bool.false_eq_true, false_or]
  rw [← hsays]
  constructor
  · intro h
    obtain ⟨g, definitions, hdefinitions, hdescribes⟩ := h
    have hne : definitions ≠ [] := exists_describes_iff.mp ⟨g, hdescribes⟩
    exact ⟨fun hnil => hne (hdefinitions.eq_nil_iff.mpr hnil), definitions, hdefinitions⟩
  · intro h
    obtain ⟨hne, definitions, hdefinitions⟩ := h
    obtain ⟨g, hdescribes⟩ := exists_describes_iff.mpr fun hnil =>
      hne (hdefinitions.eq_nil_iff.mp hnil)
    exact ⟨g, definitions, hdefinitions, hdescribes⟩

/-- A bar in a literal separates nothing, and a left side may come up again. -/
example : (read "<A> ::= \"|\" <B>\n| \n\n<B> ::= \"b\"\n<A> ::= \"\"").map
    (fun g => (g.keys, g.alternatives (.nonTerminal "A"))) =
    .ok ([.nonTerminal "A", .nonTerminal "B"],
      [[.terminal "|", .nonTerminal "B"], .epsilon, [.epsilon]]) := by
  decide +kernel

end Bnf
end LL1
