import LL1.Proofs.Text.Line
import LL1.Tokens

/-!
# What a token file can hold

A token is a trimmed text on one line, and every list of such tokens is held by some file.
Which line ends the file has, whether its last line is ended and where it has blank lines does
not matter: trimming takes off what splitting into lines leaves of a line end, and blank lines
hold no token.
-/

namespace LL1
namespace Tokens

open Text (isBlank trim IsTrimmed)

/-- A text that a line can hold as its token. -/
structure IsToken (token : String) : Prop where
  isTrimmed : IsTrimmed token.toList
  newline_not_mem : '\n' ∉ token.toList

inductive LineEnd where
  | feed
  | returnFeed

def LineEnd.chars : LineEnd → List Char
  | .feed => ['\n']
  | .returnFeed => ['\r', '\n']

def LineEnd.text (e : LineEnd) : String := String.ofList e.chars

/-- Lines with their line ends, and a last line without one. If that is empty, the file ends
with a line end. -/
structure Layout where
  ended : List (List Char × LineEnd)
  last : List Char

namespace Layout

def chars (layout : Layout) : List Char :=
  layout.ended.flatMap (fun line => line.1 ++ line.2.chars) ++ layout.last

def text (layout : Layout) : String := String.ofList layout.chars

def lines (layout : Layout) : List (List Char) := layout.ended.map Prod.fst ++ [layout.last]

/-- The lines that are not blank are the tokens in their order. -/
structure Holds (layout : Layout) (tokens : List String) : Prop where
  newline_not_mem : ∀ line ∈ layout.lines, '\n' ∉ line
  filter_lines : (layout.lines.filter fun line => !line.all isBlank) = tokens.map String.toList

/-- Ends the last line too. -/
def close (e : LineEnd) (layout : Layout) : Layout := ⟨layout.ended ++ [(layout.last, e)], []⟩

/-- Nothing but the tokens, with the same line end between any two of them. -/
def joined (e : LineEnd) : List String → Layout
  | [] => ⟨[], []⟩
  | [token] => ⟨[], token.toList⟩
  | token :: next :: tokens =>
    let others := joined e (next :: tokens)
    ⟨(token.toList, e) :: others.ended, others.last⟩

end Layout

variable {e : LineEnd} {line rest : List Char} {lines lines' : List (List Char)} {token : String}
  {tokens : List String} {layout : Layout}

/-! ## Lines and their tokens -/

/-- Only the trimmed lines count. -/
theorem ofLines_congr (h : lines.map trim = lines'.map trim) : ofLines lines = ofLines lines' := by
  rw [ofLines, ofLines, h]

theorem ofLines_append : ofLines (lines ++ lines') = ofLines lines ++ ofLines lines' := by
  rw [ofLines, List.map_append, List.filter_append, List.map_append]
  rfl

theorem ofLines_eq (lines : List (List Char)) :
    ofLines lines = (lines.filter fun line => !line.all isBlank).map fun line =>
      String.ofList (trim line) := by
  have hblank : ∀ line : List Char, (trim line).isEmpty = line.all isBlank := by
    intro line
    rw [Bool.eq_iff_iff, List.isEmpty_iff, Text.trim_eq_nil_iff, List.all_eq_true]
  simp only [ofLines, List.filter_map, List.map_map, Function.comp_def, hblank]

/-- What is left of a line is trimmed and stays on its line. -/
theorem isToken_of_mem_ofLines (hlines : ∀ line ∈ lines, '\n' ∉ line) (h : token ∈ ofLines lines) :
    IsToken token := by
  obtain ⟨chars, hchars, rfl⟩ := List.mem_map.mp h
  obtain ⟨hmem, hne⟩ := List.mem_filter.mp hchars
  obtain ⟨line, hline, rfl⟩ := List.mem_map.mp hmem
  have hfeed : '\n' ∉ trim line := fun hmem =>
    hlines line hline ((Text.trim_isInfix line).subset hmem)
  constructor
  · rw [String.toList_ofList]
    exact Text.isTrimmed_trim (by simpa using hne)
  · rwa [String.toList_ofList]

theorem isToken_of_mem_read {source : String} (h : token ∈ read source) : IsToken token :=
  isToken_of_mem_ofLines (fun _ => Text.not_mem_lines) h

/-! ## Files -/

/-- A line that is split off may keep the carriage return of its line end or lose one of its
own. -/
theorem exists_lines_append (e : LineEnd) (rest : List Char) (hline : '\n' ∉ line) :
    ∃ found, Text.lines (line ++ (e.chars ++ rest)) = found :: Text.lines rest ∧
      trim found = trim line := by
  have hreturn : ∀ c ∈ ['\r'], isBlank c := List.forall_mem_singleton.mpr (by decide)
  cases e with
  | returnFeed => exact ⟨line, Text.lines_append_return hline, rfl⟩
  | feed =>
    by_cases hlast : line.getLast? = some '\r'
    · have hfront : line.dropLast ++ ['\r'] = line := List.dropLast_append_getLast? '\r' hlast
      have hfeed : '\n' ∉ line.dropLast := fun hmem => hline (List.dropLast_subset line hmem)
      refine ⟨line.dropLast, ?_, ?_⟩
      · rw [← hfront, List.append_assoc, List.dropLast_concat]
        exact Text.lines_append_return hfeed
      · rw [← Text.trim_append hreturn, hfront]
    · exact ⟨line, Text.lines_append_newline hline hlast, rfl⟩

/-- The tokens of a file are those of its lines. -/
theorem read_text (h : ∀ line ∈ layout.lines, '\n' ∉ line) :
    read layout.text = ofLines layout.lines := by
  obtain ⟨ended, last⟩ := layout
  rw [read, Layout.text, String.toList_ofList]
  induction ended with
  | nil =>
    show ofLines (Text.lines last) = ofLines [last]
    by_cases hlast : last = []
    · rw [hlast]
      rfl
    · rw [Text.lines_of_not_mem hlast (h last List.mem_cons_self)]
  | cons line ended ih =>
    obtain ⟨hline, hothers⟩ := List.forall_mem_cons.mp h
    obtain ⟨found, hfound, htrim⟩ :=
      exists_lines_append line.2 (Layout.chars ⟨ended, last⟩) hline
    have hchars : Layout.chars ⟨line :: ended, last⟩ =
        line.1 ++ (line.2.chars ++ Layout.chars ⟨ended, last⟩) := by
      simp [Layout.chars]
    have hhead : ofLines [found] = ofLines [line.1] := ofLines_congr (by simp [htrim])
    calc ofLines (Text.lines (Layout.chars ⟨line :: ended, last⟩))
        = ofLines ([found] ++ Text.lines (Layout.chars ⟨ended, last⟩)) := by
          rw [hchars, hfound, List.singleton_append]
      _ = ofLines ([line.1] ++ Layout.lines ⟨ended, last⟩) := by
          rw [ofLines_append, ofLines_append, hhead, ih hothers]

/-- A file that holds tokens is read as these tokens. -/
theorem Layout.Holds.read_eq (h : layout.Holds tokens) (htokens : ∀ token ∈ tokens, IsToken token) :
    read layout.text = tokens := by
  rw [read_text h.newline_not_mem, ofLines_eq, h.filter_lines, List.map_map]
  refine (List.map_congr_left fun token htoken => ?_).trans (List.map_id tokens)
  have htrim : trim ([] ++ (token.toList ++ [])) = token.toList :=
    (htokens token htoken).isTrimmed.trim_eq (by simp) (by simp)
  rw [List.nil_append, List.append_nil] at htrim
  show String.ofList (trim token.toList) = token
  rw [htrim, String.ofList_toList]

/-- An empty line is blank. -/
theorem Layout.Holds.close (h : layout.Holds tokens) (e : LineEnd) :
    (layout.close e).Holds tokens := by
  have hlines : (layout.close e).lines = layout.lines ++ [[]] := by
    simp [Layout.close, Layout.lines]
  constructor
  · rw [hlines]
    intro line hline
    rcases List.mem_append.mp hline with hline | hline
    · exact h.newline_not_mem line hline
    · rw [List.mem_singleton.mp hline]
      exact List.not_mem_nil
  · rw [hlines, List.filter_append, h.filter_lines]
    exact List.append_nil _

theorem Layout.chars_close (e : LineEnd) (layout : Layout) :
    (layout.close e).chars = layout.chars ++ e.chars := by
  simp [Layout.close, Layout.chars]

theorem IsToken.all_isBlank (h : IsToken token) : token.toList.all isBlank = false := by
  have hblank : ¬ ∀ c ∈ token.toList, isBlank c := by
    intro hall
    have hfirst := List.head?_eq_some_head h.isTrimmed.ne_nil
    have hc := h.isTrimmed.head _ hfirst
    rw [hall _ (List.mem_of_head? hfirst)] at hc
    cases hc
  rwa [← List.all_eq_true, Bool.not_eq_true] at hblank

theorem Layout.lines_joined (e : LineEnd) (hne : tokens ≠ []) :
    (joined e tokens).lines = tokens.map String.toList := by
  fun_induction joined e tokens with
  | case1 => exact absurd rfl hne
  | case2 token => rfl
  | case3 token next tokens others ih =>
    have hothers : others.lines = (next :: tokens).map String.toList := ih (List.cons_ne_nil _ _)
    show token.toList :: others.lines = _
    rw [hothers]
    rfl

theorem Layout.holds_joined (e : LineEnd) (h : ∀ token ∈ tokens, IsToken token) :
    (joined e tokens).Holds tokens := by
  by_cases hne : tokens = []
  · rw [hne]
    exact ⟨by simp [joined, lines], rfl⟩
  · constructor
    · rw [lines_joined e hne]
      exact List.forall_mem_map.mpr fun token htoken => (h token htoken).newline_not_mem
    · rw [lines_joined e hne, List.filter_eq_self]
      refine List.forall_mem_map.mpr fun token htoken => ?_
      rw [(h token htoken).all_isBlank]
      rfl

theorem Layout.chars_joined (e : LineEnd) (tokens : List String) :
    (joined e tokens).chars = e.chars.intercalate (tokens.map String.toList) := by
  fun_induction joined e tokens with
  | case1 => rfl
  | case2 token => simp [chars]
  | case3 token next tokens others ih =>
    have hothers : chars ⟨(token.toList, e) :: others.ended, others.last⟩ =
        token.toList ++ (e.chars ++ others.chars) := by
      simp [chars]
    rw [hothers, ih]
    simp [List.intercalate_cons_cons]

theorem read_joined (e : LineEnd) (h : ∀ token ∈ tokens, IsToken token) :
    read (e.text.intercalate tokens) = tokens := by
  have htext : (Layout.joined e tokens).text = e.text.intercalate tokens := by
    apply String.ext
    rw [Layout.text, String.toList_ofList, Layout.chars_joined, String.toList_intercalate,
      LineEnd.text, String.toList_ofList]
  rw [← htext]
  exact (Layout.holds_joined e h).read_eq h

theorem read_joined_append (e : LineEnd) (h : ∀ token ∈ tokens, IsToken token) :
    read (e.text.intercalate tokens ++ e.text) = tokens := by
  have htext : ((Layout.joined e tokens).close e).text = e.text.intercalate tokens ++ e.text := by
    apply String.ext
    rw [Layout.text, String.toList_ofList, Layout.chars_close, Layout.chars_joined,
      String.toList_append, String.toList_intercalate, LineEnd.text, String.toList_ofList]
  rw [← htext]
  exact ((Layout.holds_joined e h).close e).read_eq h

/-- The lists that are read from some file are those of tokens. Such a list is read from every
file that holds it, so from the tokens joined by line ends with or without a last one. -/
theorem exists_read_eq_iff (tokens : List String) :
    ((∃ source, read source = tokens) ↔ ∀ token ∈ tokens, IsToken token) ∧
      ((∀ token ∈ tokens, IsToken token) →
        (∀ layout : Layout, layout.Holds tokens → read layout.text = tokens) ∧
        ∀ e : LineEnd, read (e.text.intercalate tokens) = tokens ∧
          read (e.text.intercalate tokens ++ e.text) = tokens) := by
  refine ⟨⟨?_, fun h => ⟨_, read_joined .feed h⟩⟩, fun h => ⟨?_, ?_⟩⟩
  · intro hsource
    obtain ⟨source, rfl⟩ := hsource
    exact fun token => isToken_of_mem_read
  · exact fun layout hholds => hholds.read_eq h
  · exact fun e => ⟨read_joined e h, read_joined_append e h⟩

/-- Of two carriage returns in front of a line feed one belongs to the line. The last line is
blank and not ended. -/
def mixture : Layout where
  ended :=
    [(['\r'], .returnFeed), (['a', '\r', 'b'], .feed), ([' ', '\t'], .feed),
      (['\u2028'], .returnFeed), (['x', '\u2028', '|'], .returnFeed)]
  last := ['\u3000']

/-- A carriage return and a line separator stand in tokens. -/
theorem read_mixture :
    (∀ token ∈ ["a\rb", "x\u2028|"], IsToken token) ∧ mixture.Holds ["a\rb", "x\u2028|"] ∧
      read "\r\r\na\rb\n \t\n\u2028\r\nx\u2028|\r\n\u3000" = ["a\rb", "x\u2028|"] := by
  have hfirst : "a\rb".toList = 'a' :: (['\r'] ++ ['b']) := by decide
  have hsecond : "x\u2028|".toList = 'x' :: (['\u2028'] ++ ['|']) := by decide
  have htokens : ∀ token ∈ ["a\rb", "x\u2028|"], IsToken token := by
    rw [List.forall_mem_cons, List.forall_mem_singleton]
    refine ⟨⟨?_, by decide⟩, ⟨?_, by decide⟩⟩
    · rw [hfirst]
      exact Text.isTrimmed_enclosed (by decide) (by decide)
    · rw [hsecond]
      exact Text.isTrimmed_enclosed (by decide) (by decide)
  have hholds : mixture.Holds ["a\rb", "x\u2028|"] := ⟨by decide, by decide +kernel⟩
  have htext : mixture.text = "\r\r\na\rb\n \t\n\u2028\r\nx\u2028|\r\n\u3000" := by decide +kernel
  refine ⟨htokens, hholds, ?_⟩
  rw [← htext]
  exact ((exists_read_eq_iff _).2 htokens).1 _ hholds

end Tokens
end LL1
