import LL1.Text.Blank
import LL1.Text.Line
import Mathlib.Data.List.Basic

/-!
# Trimmed lines

Trimming takes off blanks at the ends and nothing else. Lines that hold no line feed and do
not end with a carriage return are the lines of the text that they are joined to.
-/

namespace LL1
namespace Text

variable {c : Char} {cs front back line rest : List Char}

/-! ## Trimming -/

/-- The text is not empty and has no blank at either end. -/
structure IsTrimmed (cs : List Char) : Prop where
  ne_nil : cs ≠ []
  head : ∀ c ∈ cs.head?, isBlank c = false
  last : ∀ c ∈ cs.getLast?, isBlank c = false

theorem isTrimmed_enclosed {first last : Char} (hfirst : isBlank first = false)
    (hlast : isBlank last = false) : IsTrimmed (first :: (cs ++ [last])) where
  ne_nil := List.cons_ne_nil _ _
  head c hc := by
    rw [← Option.some.inj hc]
    exact hfirst
  last c hc := by
    rw [← List.cons_append, List.getLast?_concat] at hc
    rw [← Option.some.inj hc]
    exact hlast

theorem trimLeft_append (hfront : ∀ c ∈ front, isBlank c)
    (hhead : ∀ c ∈ cs.head?, isBlank c = false) : trimLeft (front ++ cs) = cs := by
  have hskip : trimLeft (front ++ cs) = trimLeft cs := List.dropWhile_append_of_pos hfront
  rw [hskip]
  cases cs with
  | nil => rfl
  | cons c cs =>
    have hc : isBlank c = false := hhead c rfl
    exact List.dropWhile_cons_of_neg (by simp [hc])

theorem IsTrimmed.trim_eq (h : IsTrimmed cs) (hfront : ∀ c ∈ front, isBlank c)
    (hback : ∀ c ∈ back, isBlank c) : trim (front ++ (cs ++ back)) = cs := by
  have hhead : ∀ c ∈ (cs ++ back).head?, isBlank c = false := by
    rw [List.head?_append_of_ne_nil cs h.ne_nil]
    exact h.head
  have hreverse : ∀ c ∈ back.reverse, isBlank c := fun c hc => hback c (List.mem_reverse.mp hc)
  have hlast : ∀ c ∈ cs.reverse.head?, isBlank c = false := by
    rw [List.head?_reverse]
    exact h.last
  rw [trim, trimLeft_append hfront hhead, List.reverse_append, trimLeft_append hreverse hlast,
    List.reverse_reverse]

theorem IsTrimmed.append (h : IsTrimmed cs) (hback : IsTrimmed back) (middle : List Char) :
    IsTrimmed (cs ++ (middle ++ back)) where
  ne_nil := List.append_ne_nil_of_left_ne_nil h.ne_nil _
  head := by
    rw [List.head?_append_of_ne_nil cs h.ne_nil]
    exact h.head
  last := by
    rw [← List.append_assoc, List.getLast?_append_of_ne_nil _ hback.ne_nil]
    exact hback.last

theorem trim_isInfix (cs : List Char) : trim cs <:+: cs := by
  have hleft : trimLeft cs <:+: cs := (List.dropWhile_suffix _).isInfix
  have hright : trim cs <:+: trimLeft cs := by
    have hsuffix : trimLeft (trimLeft cs).reverse <:+: (trimLeft cs).reverse :=
      (List.dropWhile_suffix _).isInfix
    rw [← List.reverse_infix, List.reverse_reverse] at hsuffix
    exact hsuffix
  exact hright.trans hleft

theorem not_isBlank_of_mem_head? (h : c ∈ (trimLeft cs).head?) : isBlank c = false := by
  obtain ⟨rest, hrest⟩ := List.head?_eq_some_iff.mp h
  exact not_isBlank_of_trimLeft hrest

/-- What trimming leaves is trimmed. -/
theorem isTrimmed_trim (hne : trim cs ≠ []) : IsTrimmed (trim cs) where
  ne_nil := hne
  head := by
    obtain ⟨front, hfront⟩ : trimLeft (trimLeft cs).reverse <:+ (trimLeft cs).reverse :=
      List.dropWhile_suffix _
    have hne' : trimLeft (trimLeft cs).reverse ≠ [] := fun hnil => hne (by rw [trim, hnil]; rfl)
    intro c hc
    rw [trim, List.head?_reverse, ← List.getLast?_append_of_ne_nil front hne', hfront,
      List.getLast?_reverse] at hc
    exact not_isBlank_of_mem_head? hc
  last := by
    intro c hc
    rw [trim, List.getLast?_reverse] at hc
    exact not_isBlank_of_mem_head? hc

/-- Blanks behind a text do not count, even if it is blank itself. -/
theorem trim_append (hback : ∀ c ∈ back, isBlank c) : trim (cs ++ back) = trim cs := by
  by_cases hcs : ∀ c ∈ cs, isBlank c
  · have hall : ∀ c ∈ cs ++ back, isBlank c := fun c hc =>
      (List.mem_append.mp hc).elim (hcs c) (hback c)
    rw [trim_eq_nil_iff.mpr hall, trim_eq_nil_iff.mpr hcs]
  · have hne : trimLeft cs ≠ [] := fun hnil => hcs (trimLeft_eq_nil_iff.mp hnil)
    have hleft : trimLeft (cs ++ back) = trimLeft cs ++ back := by
      unfold trimLeft at hne ⊢
      rw [List.dropWhile_append, if_neg (by simpa using hne)]
    have hreverse : ∀ c ∈ back.reverse, isBlank c := fun c hc => hback c (List.mem_reverse.mp hc)
    have hskip : trimLeft (back.reverse ++ (trimLeft cs).reverse) = trimLeft (trimLeft cs).reverse :=
      List.dropWhile_append_of_pos hreverse
    rw [trim, hleft, List.reverse_append, hskip, trim]

/-! ## Lines -/

theorem lines_cons {line : List Char} {others : List (List Char)} (hnew : c ≠ '\n')
    (hreturn : c = '\r' → cs.head? ≠ some '\n') (h : lines cs = line :: others) :
    lines (c :: cs) = (c :: line) :: others := by
  rw [lines, h]
  · exact hnew
  · intro rest hc hcs
    exact hreturn hc (by rw [hcs]; rfl)

/-- The first lines of a text are the lines of what it starts with. -/
theorem exists_prefix_lines (cs : List Char) (n : Nat) :
    ∃ front, front <+: cs ∧ lines front = (lines cs).take n := by
  cases n with
  | zero => exact ⟨[], List.nil_prefix, by rw [lines, List.take_zero]⟩
  | succ n =>
    fun_induction lines cs generalizing n with
    | case1 => exact ⟨[], List.prefix_rfl, by rw [lines, List.take_nil]⟩
    | case2 cs ih =>
      cases n with
      | zero => exact ⟨['\n'], by simp, by rw [lines, lines, List.take_succ_cons, List.take_zero]⟩
      | succ n =>
        obtain ⟨front, hfront, hlines⟩ := ih n
        refine ⟨'\n' :: front, List.cons_prefix_cons.mpr ⟨rfl, hfront⟩, ?_⟩
        rw [lines, hlines, List.take_succ_cons]
    | case3 cs ih =>
      cases n with
      | zero =>
        exact ⟨['\r', '\n'], by simp, by rw [lines, lines, List.take_succ_cons, List.take_zero]⟩
      | succ n =>
        obtain ⟨front, hfront, hlines⟩ := ih n
        refine ⟨'\r' :: '\n' :: front, by simpa using hfront, ?_⟩
        rw [lines, hlines, List.take_succ_cons]
    | case4 c cs hnew hreturn hnil =>
      refine ⟨c :: cs, List.prefix_rfl, ?_⟩
      rw [lines, hnil, List.take_succ_cons, List.take_nil]
      · exact hnew
      · exact hreturn
    | case5 c cs hnew hreturn line rest hcs ih =>
      obtain ⟨front, hfront, hlines⟩ := ih n
      rw [hcs, List.take_succ_cons] at hlines
      refine ⟨c :: front, List.cons_prefix_cons.mpr ⟨rfl, hfront⟩, ?_⟩
      rw [List.take_succ_cons]
      refine lines_cons hnew (fun hc hhead => ?_) hlines
      obtain ⟨front, rfl⟩ := List.head?_eq_some_iff.mp hhead
      obtain ⟨back, rfl⟩ := hfront
      exact hreturn (front ++ back) hc rfl

theorem lines_of_not_mem (hne : line ≠ []) (hnew : '\n' ∉ line) : lines line = [line] := by
  induction line with
  | nil => exact absurd rfl hne
  | cons c line ih =>
    rw [List.mem_cons, not_or] at hnew
    cases line with
    | nil =>
      rw [lines, lines]
      · exact fun heq => hnew.1 heq.symm
      · exact fun rest _ heq => nomatch heq
    | cons d line =>
      refine lines_cons (fun heq => hnew.1 heq.symm) (fun _ hd => hnew.2 ?_)
        (ih (List.cons_ne_nil d line) hnew.2)
      exact List.mem_of_mem_head? hd

theorem lines_append {tail : List Char} {others : List (List Char)} (hnew : '\n' ∉ line)
    (hreturn : line.getLast? = some '\r' → tail.head? ≠ some '\n')
    (h : lines tail = [] :: others) : lines (line ++ tail) = line :: others := by
  induction line with
  | nil => exact h
  | cons c line ih =>
    rw [List.mem_cons, not_or] at hnew
    cases line with
    | nil => exact lines_cons (fun heq => hnew.1 heq.symm) (fun hc => hreturn (by rw [hc]; rfl)) h
    | cons d line =>
      rw [List.getLast?_cons_cons] at hreturn
      refine lines_cons (fun heq => hnew.1 heq.symm) (fun _ hd => hnew.2 ?_) (ih hnew.2 hreturn)
      exact List.mem_of_mem_head? hd

theorem lines_append_newline (hnew : '\n' ∉ line) (hreturn : line.getLast? ≠ some '\r') :
    lines (line ++ '\n' :: rest) = line :: lines rest :=
  lines_append hnew (fun hlast => absurd hlast hreturn) (by rw [lines])

/-- At most one carriage return is taken off with the line feed. -/
theorem lines_append_return (hnew : '\n' ∉ line) :
    lines (line ++ '\r' :: '\n' :: rest) = line :: lines rest :=
  lines_append hnew (fun _ => by simp) (by rw [lines])

theorem lines_intercalate {ls : List (List Char)}
    (h : ∀ line ∈ ls, line ≠ [] ∧ '\n' ∉ line ∧ line.getLast? ≠ some '\r') :
    lines (['\n'].intercalate ls) = ls := by
  induction ls with
  | nil => rw [List.intercalate_nil, lines]
  | cons line ls ih =>
    obtain ⟨⟨hne, hnew, hreturn⟩, hls⟩ := List.forall_mem_cons.mp h
    cases ls with
    | nil => rw [List.intercalate_singleton, lines_of_not_mem hne hnew]
    | cons next ls =>
      rw [List.intercalate_cons_cons, List.append_assoc, List.singleton_append,
        lines_append_newline hnew hreturn, ih hls]

end Text
end LL1
