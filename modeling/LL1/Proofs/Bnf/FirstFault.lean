import LL1.Proofs.Bnf.Offsets
import LL1.Proofs.Bnf.Reading
import LL1.Proofs.Text.Line

/-!
# The first fault of a grammar text

The lines of a text are read one after the other, and the first line that is neither blank nor
well formed decides what is reported, whatever is behind it. A character that is reported as
unexpected stands behind a text that could be read by itself, at the column that is reported.
-/

namespace LL1
namespace Bnf

open Text (isBlank trim)

variable {cs line text rest : List Char} {previous : Option Symbol} {fault : Fault} {e : Error}
  {number n : Nat} {lines before after : List (List Char)} {definitions : List Definition}

/-! ## Lines -/

/-- The line is blank, or it is a rule or continues a line before it that is not blank. -/
def IsSound (earlier : List (List Char)) (line : List Char) : Prop :=
  trim line = [] ∨
    (filledLines earlier ≠ [] ∧ ∃ sequences, ContinuationText (trim line) sequences) ∨
    ∃ left sequences, RuleText (trim line) left sequences

/-- Each of the lines is blank or well formed. -/
def AllSound (lines : List (List Char)) : Prop :=
  ∀ before line after, lines = before ++ line :: after → IsSound before line

/-- The first line that is neither blank nor well formed has a number. -/
def FirstUnsound (lines : List (List Char)) (number : Nat) : Prop :=
  ∃ before line after, lines = before ++ line :: after ∧ before.length + 1 = number ∧
    AllSound before ∧ ¬ IsSound before line

theorem allSound_nil : AllSound [] := by
  intro before line after h
  exact absurd h.symm (List.append_ne_nil_of_right_ne_nil _ (List.cons_ne_nil _ _))

theorem allSound_concat_iff :
    AllSound (lines ++ [line]) ↔ AllSound lines ∧ IsSound lines line := by
  constructor
  · intro h
    refine ⟨fun before l after heq => h before l (after ++ [line]) ?_, h lines line [] rfl⟩
    rw [heq]
    simp
  · rintro ⟨hlines, hline⟩ before l after heq
    rcases List.eq_nil_or_concat after with rfl | ⟨after, last, rfl⟩
    · obtain ⟨rfl, hl⟩ := List.append_inj' heq rfl
      obtain rfl := List.singleton_inj.mp hl
      exact hline
    · rw [List.concat_eq_append, ← List.cons_append, ← List.append_assoc] at heq
      exact hlines before l after (List.append_inj_left' heq rfl)

/-- The left side that a continuation after some definitions would have. -/
def leftBehind (previous : Option Symbol) (definitions : List Definition) : Option Symbol :=
  (definitions.getLast?.map Definition.left).or previous

theorem leftBehind_cons (d : Definition) :
    leftBehind previous (d :: definitions) = leftBehind (some d.left) definitions := by
  unfold leftBehind
  cases definitions with
  | nil => rfl
  | cons d' definitions =>
    rw [List.getLast?_cons_cons, List.getLast?_eq_some_getLast (List.cons_ne_nil d' definitions)]
    rfl

theorem isSome_leftBehind_iff : (leftBehind none definitions).isSome ↔ definitions ≠ [] := by
  unfold leftBehind
  cases definitions with
  | nil => simp
  | cons d definitions => simp [List.getLast?_eq_some_getLast]

theorem readDefinitions_append : readDefinitions number previous (before ++ after) =
    readDefinitions number previous before >>= fun definitions =>
      (readDefinitions (number + before.length) (leftBehind previous definitions) after).map
        (definitions ++ ·) := by
  induction before generalizing number previous with
  | nil =>
    show _ = (readDefinitions number previous after).map ([] ++ ·)
    cases h : readDefinitions number previous after with
    | error e => rw [List.nil_append, h]; rfl
    | ok found => rw [List.nil_append, h]; rfl
  | cons line before ih =>
    have hnumber : number + (line :: before).length = number + 1 + before.length := by
      rw [List.length_cons]
      omega
    rw [List.cons_append, readDefinitions, readDefinitions, hnumber]
    cases trim line with
    | nil => exact ih
    | cons c cs =>
      dsimp only
      cases readDefinition previous (c :: cs) with
      | error fault => rfl
      | ok d =>
        dsimp only
        rw [ih]
        cases readDefinitions (number + 1) (some d.left) before with
        | error e => rfl
        | ok found =>
          show (Except.map _ (Except.map _ _)) = Except.map _ _
          rw [leftBehind_cons]
          cases readDefinitions (number + 1 + before.length) (leftBehind (some d.left) found)
            after with
          | error e => rfl
          | ok behind => rfl

/-- Reading fails at a line behind lines that are read. -/
theorem exists_of_readDefinitions_eq_error (h : readDefinitions number previous lines = .error e) :
    ∃ before line after definitions fault, lines = before ++ line :: after ∧
      readDefinitions number previous before = .ok definitions ∧ trim line ≠ [] ∧
      readDefinition (leftBehind previous definitions) (trim line) = .error fault ∧
      e = .malformedLine (number + before.length) fault := by
  induction lines generalizing number previous with
  | nil => cases h
  | cons line lines ih =>
    unfold readDefinitions at h
    cases htrim : trim line with
    | nil =>
      rw [htrim] at h
      obtain ⟨before, l, after, definitions, fault, rfl, hread, hne, hfault, rfl⟩ := ih h
      refine ⟨line :: before, l, after, definitions, fault, rfl, ?_, hne, hfault, ?_⟩
      · rw [readDefinitions, htrim]
        exact hread
      · rw [List.length_cons]
        congr 1
        omega
    | cons c cs =>
      rw [htrim] at h
      have hne : trim line ≠ [] := htrim ▸ List.cons_ne_nil c cs
      cases hd : readDefinition previous (c :: cs) with
      | error fault =>
        simp only [hd] at h
        obtain rfl := Except.error.inj h
        exact ⟨[], line, lines, [], fault, rfl, rfl, hne, htrim ▸ hd, rfl⟩
      | ok d =>
        simp only [hd] at h
        obtain ⟨before, l, after, definitions, fault, rfl, hread, hne, hfault, rfl⟩ :=
          ih (map_eq_error_iff.mp h)
        refine ⟨line :: before, l, after, d :: definitions, fault, rfl, ?_, hne, ?_, ?_⟩
        · rw [readDefinitions, htrim]
          simp only [hd, hread]
          rfl
        · rw [leftBehind_cons]
          exact hfault
        · rw [List.length_cons]
          congr 1
          omega

theorem exists_readDefinition_iff : (∃ d, readDefinition previous line = .ok d) ↔
    (previous.isSome ∧ ∃ sequences, ContinuationText line sequences) ∨
      ∃ left sequences, RuleText line left sequences := by
  simp only [readDefinition_eq_ok_iff]
  constructor
  · rintro ⟨d, hprevious, h⟩
    · exact Or.inl ⟨Option.isSome_of_eq_some hprevious, _, h⟩
    · exact Or.inr ⟨_, _, by assumption⟩
  · rintro (⟨hprevious, sequences, h⟩ | ⟨left, sequences, h⟩)
    · obtain ⟨left, hleft⟩ := Option.isSome_iff_exists.mp hprevious
      exact ⟨_, .continuation hleft h⟩
    · exact ⟨_, .rule h⟩

/-- Behind lines that are read, a line is sound if and only if it is blank or read. -/
theorem isSound_iff (h : readDefinitions number none lines = .ok definitions) :
    IsSound lines line ↔
      trim line = [] ∨ ∃ d, readDefinition (leftBehind none definitions) (trim line) = .ok d := by
  have hfilled : (leftBehind none definitions).isSome ↔ filledLines lines ≠ [] :=
    isSome_leftBehind_iff.trans (not_congr (readDefinitions_eq_ok_iff.mp h).eq_nil_iff)
  unfold IsSound
  rw [exists_readDefinition_iff, hfilled]

theorem exists_readDefinitions_singleton_iff :
    (∃ definitions, readDefinitions number previous [line] = .ok definitions) ↔
      trim line = [] ∨ ∃ d, readDefinition previous (trim line) = .ok d := by
  unfold readDefinitions
  cases trim line with
  | nil => exact iff_of_true ⟨[], rfl⟩ (Or.inl rfl)
  | cons c cs =>
    rw [or_iff_right (List.cons_ne_nil c cs)]
    dsimp only
    cases readDefinition previous (c :: cs) with
    | error fault => simp
    | ok d => exact iff_of_true ⟨[d], rfl⟩ ⟨d, rfl⟩

theorem exists_readDefinitions_iff :
    (∃ definitions, readDefinitions number none lines = .ok definitions) ↔ AllSound lines := by
  induction lines using List.reverseRecOn with
  | nil => exact iff_of_true ⟨[], rfl⟩ allSound_nil
  | append_singleton lines line ih =>
    rw [allSound_concat_iff, ← ih]
    simp only [readDefinitions_append]
    cases hread : readDefinitions number none lines with
    | error e =>
      refine iff_of_false ?_ ?_
      · rintro ⟨_, h⟩
        cases h
      · rintro ⟨⟨_, h⟩, _⟩
        cases h
    | ok definitions =>
      have hsingle : (∃ last, readDefinitions (number + lines.length)
            (leftBehind none definitions) [line] = .ok last) ↔
          trim line = [] ∨ ∃ d, readDefinition (leftBehind none definitions) (trim line) = .ok d :=
        exists_readDefinitions_singleton_iff
      rw [isSound_iff hread, and_iff_right ⟨definitions, rfl⟩, ← hsingle]
      constructor
      · rintro ⟨all, hall⟩
        obtain ⟨last, hlast, _⟩ := map_eq_ok_iff.mp hall
        exact ⟨last, hlast⟩
      · rintro ⟨last, hlast⟩
        exact ⟨definitions ++ last, map_eq_ok_iff.mpr ⟨last, hlast, rfl⟩⟩

/-- A fault is reported whatever is behind its line. -/
theorem readDefinitions_of_fault (h : readDefinitions number previous before = .ok definitions)
    (hne : trim line ≠ [])
    (hfault : readDefinition (leftBehind previous definitions) (trim line) = .error fault) :
    readDefinitions number previous (before ++ line :: after) =
      .error (.malformedLine (number + before.length) fault) := by
  rw [readDefinitions_append, h]
  show Except.map _ _ = _
  rw [readDefinitions]
  cases htrim : trim line with
  | nil => exact absurd htrim hne
  | cons c cs =>
    rw [htrim] at hfault
    dsimp only
    rw [hfault]
    rfl

theorem firstUnsound_iff : FirstUnsound lines n ↔
    ∃ fault, readDefinitions 1 none lines = .error (.malformedLine n fault) := by
  constructor
  · rintro ⟨before, line, after, rfl, rfl, hbefore, hline⟩
    have hreads : ∃ definitions, readDefinitions 1 none before = .ok definitions :=
      exists_readDefinitions_iff.mpr hbefore
    obtain ⟨definitions, hread⟩ := hreads
    rw [isSound_iff hread, not_or] at hline
    cases hd : readDefinition (leftBehind none definitions) (trim line) with
    | error fault =>
      refine ⟨fault, ?_⟩
      rw [readDefinitions_of_fault hread hline.1 hd, Nat.add_comm]
    | ok d => exact absurd ⟨d, hd⟩ hline.2
  · rintro ⟨fault, h⟩
    obtain ⟨before, line, after, definitions, found, rfl, hread, hne, hfault, heq⟩ :=
      exists_of_readDefinitions_eq_error h
    obtain ⟨rfl, rfl⟩ := Error.malformedLine.inj heq
    refine ⟨before, line, after, rfl, Nat.add_comm _ _,
      exists_readDefinitions_iff.mp ⟨definitions, hread⟩, ?_⟩
    rw [isSound_iff hread, hfault]
    rintro (hnil | ⟨d, hd⟩)
    · exact hne hnil
    · cases hd

/-! ## Unexpected characters -/

/-- What is read of a line as alternatives: the text behind its bar, or the one behind its
first `::=`. -/
def RightHandOf (line text : List Char) : Prop :=
  line = '|' :: text ∨ (line.head? ≠ some '|' ∧ ∃ before, SplitsAtDefine line before text)

/-- The character can neither be skipped nor begin anything. -/
structure Unexpected (c : Char) : Prop where
  not_isBlank : isBlank c = false
  ne_bar : c ≠ '|'
  ne_bracket : c ≠ '<'
  ne_mark : c ≠ '"'

theorem not_unexpected_of_readNonTerminal {c : Char} {column : Nat} :
    readNonTerminal cs ≠ .error (.unexpected c column) := by
  intro h
  unfold readNonTerminal at h
  split at h
  · cases h
  · split at h <;> cases h

theorem not_unexpected_of_readLiteral {c : Char} {column : Nat} :
    readLiteral cs ≠ .error (.unexpected c column) := by
  intro h
  unfold readLiteral at h
  split at h <;> cases h

theorem not_unexpected_of_readLeft {c : Char} {column : Nat} :
    readLeft cs ≠ .error (.unexpected c column) := by
  intro h
  unfold readLeft at h
  split at h
  · cases h
  · dsimp only at h
    split at h
    · split at h <;> cases h
    · cases h

/-- The reading stops at an unexpected character behind what it has read. -/
theorem exists_of_lexemes_eq_unexpected {c : Char} {column : Nat}
    (h : lexemes text rest = .error (.unexpected c column)) :
    ∃ before behind, rest = before ++ c :: behind ∧ Unexpected c ∧
      column = columnOf text (c :: behind) ∧ ∃ found, RightText before (splitAtBars found) := by
  -- Each case puts back in front what the reader has taken off there.
  fun_induction lexemes text rest with
  | case1 => cases h
  | case2 d cs hblank ih =>
    obtain ⟨before, behind, rfl, hc, hcolumn, found, hfound⟩ := ih h
    exact ⟨d :: before, behind, rfl, hc, hcolumn, found, hfound.blank_cons hblank⟩
  | case3 cs _ ih =>
    obtain ⟨before, behind, rfl, hc, hcolumn, found, hfound⟩ := ih (map_eq_error_iff.mp h)
    exact ⟨'|' :: before, behind, rfl, hc, hcolumn, .bar :: found, hfound.bar_cons⟩
  | case4 cs fault hfault =>
    obtain rfl := Except.error.inj h
    exact absurd hfault not_unexpected_of_readNonTerminal
  | case5 cs s rest hname _ _ ih =>
    obtain ⟨before, behind, rfl, hc, hcolumn, found, hfound⟩ := ih (map_eq_error_iff.mp h)
    obtain ⟨element, helement, rfl⟩ := readNonTerminal_eq_ok_iff.mp hname
    exact ⟨'<' :: element ++ before, behind, by simp, hc, hcolumn, .element s :: found,
      hfound.element_cons helement⟩
  | case6 cs fault hfault =>
    obtain rfl := Except.error.inj h
    exact absurd hfault not_unexpected_of_readLiteral
  | case7 cs s rest hliteral _ _ _ ih =>
    obtain ⟨before, behind, rfl, hc, hcolumn, found, hfound⟩ := ih (map_eq_error_iff.mp h)
    obtain ⟨element, helement, rfl⟩ := readLiteral_eq_ok_iff.mp hliteral
    exact ⟨'"' :: element ++ before, behind, by simp, hc, hcolumn, .element s :: found,
      hfound.element_cons helement⟩
  | case8 d cs hblank hbar hbracket hmark =>
    obtain ⟨rfl, rfl⟩ := Fault.unexpected.inj (Except.error.inj h)
    refine ⟨[], cs, rfl, ⟨?_, hbar, hbracket, hmark⟩, rfl, [], .last (.blank blank_nil)⟩
    exact Bool.eq_false_iff.mpr hblank

/-- An unexpected character of a line stands at its column of the right-hand text, behind a
text that is read by itself. -/
structure StandsAt (line : List Char) (c : Char) (column : Nat) : Prop where
  unexpected : Unexpected c
  exists_text : ∃ text before behind, RightHandOf line text ∧ text = before ++ c :: behind ∧
    (String.ofList before).utf8ByteSize + 1 = column ∧ ∃ rights, readAlternatives before = .ok rights

theorem standsAt_of_readAlternatives {c : Char} {column : Nat} (hright : RightHandOf line text)
    (h : readAlternatives text = .error (.unexpected c column)) : StandsAt line c column := by
  obtain ⟨before, behind, rfl, hc, rfl, found, hfound⟩ :=
    exists_of_lexemes_eq_unexpected (map_eq_error_iff.mp h)
  refine ⟨hc, _, before, behind, hright, rfl, ?_, _, readAlternatives_eq_ok_iff.mpr
    ⟨_, hfound, rfl⟩⟩
  rw [columnOf_append, byteLength_eq_utf8ByteSize]

theorem standsAt_of_readDefinition {c : Char} {column : Nat}
    (h : readDefinition previous line = .error (.unexpected c column)) :
    StandsAt line c column := by
  unfold readDefinition at h
  split at h
  · rename_i text
    cases previous with
    | none => cases h
    | some left => exact standsAt_of_readAlternatives (.inl rfl) (map_eq_error_iff.mp h)
  · rename_i hbar
    split at h
    · cases h
    · rename_i before text hsplit
      rcases bind_eq_error_iff.mp h with hleft | ⟨left, _, h⟩
      · exact absurd hleft not_unexpected_of_readLeft
      · refine standsAt_of_readAlternatives (.inr ⟨fun hhead => ?_, before, ?_⟩)
          (map_eq_error_iff.mp h)
        · obtain ⟨text, rfl⟩ := List.head?_eq_some_iff.mp hhead
          exact hbar text rfl
        · exact splitDefine_eq_some_iff.mp hsplit

/-! ## Texts -/

theorem read_eq_error_iff {text : String} {e : Error} : read text = .error e ↔
    readDefinitions 1 none (Text.lines text.toList) = .error e ∨
      (readDefinitions 1 none (Text.lines text.toList) = .ok [] ∧ e = .noRules) := by
  unfold read
  rw [bind_eq_error_iff]
  refine or_congr_right ?_
  constructor
  · rintro ⟨definitions, hread, h⟩
    cases definitions with
    | nil => exact ⟨hread, (Except.error.inj h).symm⟩
    | cons first others => cases h
  · rintro ⟨hread, rfl⟩
    exact ⟨[], hread, rfl⟩

theorem read_eq_malformedLine_iff {text : String} :
    read text = .error (.malformedLine n fault) ↔
      readDefinitions 1 none (Text.lines text.toList) = .error (.malformedLine n fault) :=
  read_eq_error_iff.trans (or_iff_left nofun)

theorem filledLines_eq_nil_iff : filledLines lines = [] ↔ ∀ line ∈ lines, trim line = [] := by
  rw [filledLines, List.filter_eq_nil_iff, List.forall_mem_map]
  simp

theorem read_eq_noRules_iff {text : String} : read text = .error .noRules ↔
    ∀ line ∈ Text.lines text.toList, trim line = [] := by
  rw [read_eq_error_iff, and_iff_left rfl, ← filledLines_eq_nil_iff, readDefinitions_eq_ok_iff]
  constructor
  · rintro (h | h)
    · obtain ⟨_, _, _, _, _, _, _, _, _, heq⟩ := exists_of_readDefinitions_eq_error h
      cases heq
    · exact h.eq_nil_iff.mp rfl
  · intro h
    rw [h]
    exact Or.inr .nil

/-- What is reported of a line does not depend on the text behind the line, and the text in
front of it is free of faults. -/
structure IsFirstFault (text : String) (n : Nat) (fault : Fault) : Prop where
  firstUnsound : FirstUnsound (Text.lines text.toList) n
  exists_front : ∃ front : String, front.toList <+: text.toList ∧
    Text.lines front.toList = (Text.lines text.toList).take (n - 1)
  read_front {front : String} : Text.lines front.toList = (Text.lines text.toList).take (n - 1) →
    (∃ g, read front = .ok g) ∨ read front = .error .noRules
  read_other {other : String} :
    (Text.lines other.toList).take n = (Text.lines text.toList).take n →
    read other = .error (.malformedLine n fault)
  standsAt {c : Char} {column : Nat} : fault = .unexpected c column →
    ∃ line, (Text.lines text.toList)[n - 1]? = some line ∧ StandsAt (trim line) c column

theorem isFirstFault_of_read {text : String} (h : read text = .error (.malformedLine n fault)) :
    IsFirstFault text n fault := by
  have hread := read_eq_malformedLine_iff.mp h
  have hunsound := firstUnsound_iff.mpr ⟨fault, hread⟩
  obtain ⟨before, line, after, definitions, found, hsplit, hbefore, hne, hfault, heq⟩ :=
    exists_of_readDefinitions_eq_error hread
  obtain ⟨rfl, rfl⟩ := Error.malformedLine.inj heq
  have hnumber : 1 + before.length - 1 = before.length := Nat.add_sub_cancel_left _ _
  refine ⟨hunsound, ?_, ?_, ?_, ?_⟩
  · obtain ⟨front, hfront, hlines⟩ :=
      Text.exists_prefix_lines text.toList (1 + before.length - 1)
    exact ⟨String.ofList front, by rwa [String.toList_ofList], by rwa [String.toList_ofList]⟩
  · intro front hlines
    rw [hnumber, hsplit, List.take_left] at hlines
    rw [← hlines] at hbefore
    cases definitions with
    | nil => exact .inr (read_eq_error_iff.mpr (.inr ⟨hbefore, rfl⟩))
    | cons first others => exact .inl ⟨_, bind_eq_ok_iff.mpr ⟨_, hbefore, rfl⟩⟩
  · intro other hlines
    have htake : (before ++ line :: after).take (1 + before.length) = before ++ [line] := by
      rw [List.append_cons, List.take_left' (by simp [Nat.add_comm])]
    rw [hsplit, htake] at hlines
    have hother : Text.lines other.toList =
        before ++ line :: (Text.lines other.toList).drop (1 + before.length) := by
      rw [List.append_cons, ← hlines, List.take_append_drop]
    refine read_eq_malformedLine_iff.mpr ?_
    rw [hother, readDefinitions_of_fault hbefore hne hfault]
  · rintro c column rfl
    refine ⟨line, ?_, standsAt_of_readDefinition hfault⟩
    rw [hnumber, hsplit, List.getElem?_append_right (Nat.le_refl _), Nat.sub_self]
    rfl

/-- A text that is not read either has only blank lines, or its first line that is neither
blank nor well formed is reported with its number. Whatever the text behind a `::=` or a bar,
reading it by byte offsets never cuts outside of it or inside a character. -/
theorem read_fails_at_first_fault (text : String) :
    (∀ n, (∃ fault, read text = .error (.malformedLine n fault)) ↔
      FirstUnsound (Text.lines text.toList) n) ∧
    (∀ n fault, read text = .error (.malformedLine n fault) → IsFirstFault text n fault) ∧
    (read text = .error .noRules ↔ ∀ line ∈ Text.lines text.toList, trim line = []) ∧
    ∀ right, cutAlternatives right = some (readAlternatives right) := by
  refine ⟨fun n => ?_, fun n fault => isFirstFault_of_read, read_eq_noRules_iff, cutAlternatives_eq⟩
  rw [firstUnsound_iff]
  exact exists_congr fun fault => read_eq_malformedLine_iff

/-- A continuation with letters of two bytes in front of the fault, and another faulty line
behind it. -/
def strayText : String := "<é> ::= \"ü\" | <b>\n\n  | \"ß\" <é> § <\n<c> ::= ?"

theorem read_fails_at_stray_sign :
    read strayText = .error (.malformedLine 3 (.unexpected '§' 12)) ∧
      IsFirstFault strayText 3 (.unexpected '§' 12) := by
  have hread : read strayText = .error (.malformedLine 3 (.unexpected '§' 12)) := by
    decide +kernel
  exact ⟨hread, (read_fails_at_first_fault strayText).2.1 _ _ hread⟩

end Bnf
end LL1
