import LL1.Proofs.Bnf.RightHand

/-!
# Reading by byte offsets

A right-hand text can also be read through the byte offsets of its characters: the name or
literal of an element is then cut out between the offset behind its opening delimiter and
that of its closing one. A cut is possible only between two characters of the text. Every cut
that the reading makes is, whatever the text, and what is read is the same.
-/

namespace LL1
namespace Bnf

open Text (isBlank)

theorem byteLength_eq_utf8ByteSize (cs : List Char) :
    byteLength cs = (String.ofList cs).utf8ByteSize := by
  induction cs with
  | nil => rfl
  | cons c cs ih =>
    have hcons : String.ofList (c :: cs) = String.singleton c ++ String.ofList cs := by
      apply String.ext
      simp
    rw [byteLength, ih, hcons, String.utf8ByteSize_append, String.utf8ByteSize_singleton]

/-! ## Cuts -/

/-- Splits a text behind its first bytes, if they are whole characters. -/
def splitBytes : Nat → List Char → Option (List Char × List Char)
  | 0, cs => some ([], cs)
  | _ + 1, [] => none
  | n + 1, c :: cs =>
    if c.utf8Size ≤ n + 1 then
      (splitBytes (n + 1 - c.utf8Size) cs).map fun found => (c :: found.1, found.2)
    else none

/-- The part of a text between two byte offsets. There is none if one of them is outside the
text or inside a character, or if they are in the wrong order. -/
def cut (text : List Char) (start stop : Nat) : Option (List Char) :=
  if start ≤ stop then do
    let (_, behind) ← splitBytes start text
    let (part, _) ← splitBytes (stop - start) behind
    pure part
  else none

section Cuts

variable {before part rest text : List Char} {n start stop : Nat}

theorem splitBytes_append (before rest : List Char) :
    splitBytes (byteLength before) (before ++ rest) = some (before, rest) := by
  induction before with
  | nil => rw [byteLength, splitBytes, List.nil_append]
  | cons c before ih =>
    obtain ⟨n, hn⟩ : ∃ n, c.utf8Size + byteLength before = n + 1 :=
      Nat.exists_eq_succ_of_ne_zero (by have := c.utf8Size_pos; omega)
    have hrest : n + 1 - c.utf8Size = byteLength before := by omega
    rw [byteLength, hn, List.cons_append, splitBytes, if_pos (by omega), hrest, ih, Option.map_some]

theorem of_splitBytes (h : splitBytes n text = some (before, rest)) :
    text = before ++ rest ∧ byteLength before = n := by
  fun_induction splitBytes n text generalizing before with
  | case1 cs =>
    obtain ⟨rfl, rfl⟩ := Prod.mk.inj (Option.some.inj h)
    exact ⟨rfl, rfl⟩
  | case2 => cases h
  | case3 n c cs hfits ih =>
    obtain ⟨⟨front, back⟩, hfound, heq⟩ := Option.map_eq_some_iff.mp h
    obtain ⟨rfl, rfl⟩ := Prod.mk.inj heq
    obtain ⟨rfl, hlength⟩ := ih hfound
    refine ⟨rfl, ?_⟩
    rw [byteLength, hlength]
    omega
  | case4 => cases h

/-- A cut is possible exactly between two characters of the text. -/
theorem cut_eq_some_iff : cut text start stop = some part ↔
    ∃ before rest, text = before ++ (part ++ rest) ∧ byteLength before = start ∧
      byteLength (before ++ part) = stop := by
  constructor
  · intro h
    unfold cut at h
    by_cases hle : start ≤ stop
    · rw [if_pos hle] at h
      obtain ⟨⟨before, behind⟩, hbefore, h⟩ := Option.bind_eq_some_iff.mp h
      obtain ⟨⟨found, rest⟩, hpart, h⟩ := Option.bind_eq_some_iff.mp h
      obtain rfl := Option.some.inj h
      obtain ⟨rfl, hstart⟩ := of_splitBytes hbefore
      obtain ⟨rfl, hlength⟩ := of_splitBytes hpart
      refine ⟨before, rest, rfl, hstart, ?_⟩
      rw [byteLength_append]
      omega
    · rw [if_neg hle] at h
      cases h
  · rintro ⟨before, rest, rfl, rfl, rfl⟩
    have hpart : byteLength (before ++ part) - byteLength before = byteLength part := by
      rw [byteLength_append, Nat.add_sub_cancel_left]
    unfold cut
    rw [if_pos (by rw [byteLength_append]; exact Nat.le_add_right _ _), hpart, splitBytes_append]
    simp only [Option.bind_eq_bind, Option.bind_some, splitBytes_append]
    rfl

end Cuts

/-! ## Reading -/

/-- The characters of a text with the offsets at which they start, if the text starts at an
offset itself. -/
def withOffsets (offset : Nat) : List Char → List (Nat × Char)
  | [] => []
  | c :: cs => (offset, c) :: withOffsets (offset + c.utf8Size) cs

/-- Takes characters up to one that is dropped and cuts out what they are. Nothing is found
without that character. -/
def cutUntil (text : List Char) (start : Nat) (stop : Char) :
    List (Nat × Char) → Option (Option (List Char × List (Nat × Char)))
  | [] => some none
  | (offset, c) :: chars =>
    if c = stop then (cut text start offset).map fun part => some (part, chars)
    else cutUntil text start stop chars

/-- What the text between two brackets stands for. -/
def ofName (name : List Char) : Except Fault Symbol :=
  if name = [] ∨ '<' ∈ name then .error (.invalidNonTerminal (String.ofList name))
  else .ok (.nonTerminal (String.ofList name))

/-- What the text between two quotation marks stands for. -/
def ofLiteral (literal : List Char) : Except Fault Symbol :=
  if literal = [] then .ok .epsilon else .ok (.terminal (String.ofList literal))

/-- Reads an element whose opening delimiter, which takes one byte, is at an offset. -/
def cutElement (stop : Char) (unterminated : Fault) (symbolOf : List Char → Except Fault Symbol)
    (text : List Char) (offset : Nat) (chars : List (Nat × Char)) :
    Option (Except Fault (Symbol × List (Nat × Char))) :=
  match cutUntil text (offset + 1) stop chars with
  | none => none
  | some none => some (.error unterminated)
  | some (some (inner, behind)) => some ((symbolOf inner).map (·, behind))

theorem length_cutUntil {text part : List Char} {start : Nat} {stop : Char}
    {chars behind : List (Nat × Char)}
    (h : cutUntil text start stop chars = some (some (part, behind))) :
    behind.length < chars.length := by
  fun_induction cutUntil text start stop chars with
  | case1 => cases h
  | case2 offset chars =>
    obtain ⟨found, _, hfound⟩ := Option.map_eq_some_iff.mp h
    obtain ⟨_, rfl⟩ := Prod.mk.inj (Option.some.inj hfound)
    exact Nat.lt_succ_self _
  | case3 offset c chars _ ih => exact Nat.lt_succ_of_lt (ih h)

theorem length_cutElement {stop : Char} {unterminated : Fault}
    {symbolOf : List Char → Except Fault Symbol} {text : List Char} {offset : Nat}
    {chars behind : List (Nat × Char)} {s : Symbol}
    (h : cutElement stop unterminated symbolOf text offset chars = some (.ok (s, behind))) :
    behind.length < chars.length := by
  unfold cutElement at h
  split at h
  · cases h
  · cases h
  · rename_i found
    obtain ⟨_, _, heq⟩ := map_eq_ok_iff.mp (Option.some.inj h)
    obtain ⟨_, rfl⟩ := Prod.mk.inj heq
    exact length_cutUntil found

/-- Reads the characters of a final part of a text. There is no result if a cut is not
possible. -/
def cutLexemes (text : List Char) (chars : List (Nat × Char)) :
    Option (Except Fault (List Lexeme)) :=
  match chars with
  | [] => some (.ok [])
  | (offset, c) :: chars =>
    if isBlank c then cutLexemes text chars
    else if c = '|' then (cutLexemes text chars).map (Except.map (Lexeme.bar :: ·))
    else if c = '<' then
      match _ : cutElement '>' .unterminatedNonTerminal ofName text offset chars with
      | none => none
      | some (.error fault) => some (.error fault)
      | some (.ok (s, behind)) =>
        (cutLexemes text behind).map (Except.map (Lexeme.element s :: ·))
    else if c = '"' then
      match _ : cutElement '"' .unterminatedLiteral ofLiteral text offset chars with
      | none => none
      | some (.error fault) => some (.error fault)
      | some (.ok (s, behind)) =>
        (cutLexemes text behind).map (Except.map (Lexeme.element s :: ·))
    else some (.error (.unexpected c (offset + 1)))
termination_by chars.length
decreasing_by
  · simp
  · simp
  · exact Nat.lt_succ_of_lt (length_cutElement ‹_›)
  · exact Nat.lt_succ_of_lt (length_cutElement ‹_›)

def cutAlternatives (text : List Char) : Option (Except Fault (List Expression)) :=
  (cutLexemes text (withOffsets 0 text)).map (Except.map fun found =>
    (splitAtBars found).map ofElements)

/-! ## Every cut is possible -/

section Reading

variable {text rest mid : List Char} {c stop : Char}

/-- The characters of a final part of a text, with their offsets in the text. -/
def charsOf (text rest : List Char) : List (Nat × Char) :=
  withOffsets (byteLength text - byteLength rest) rest

theorem charsOf_cons (h : c :: rest <:+ text) :
    charsOf text (c :: rest) =
      (byteLength text - byteLength (c :: rest), c) :: charsOf text rest := by
  obtain ⟨before, rfl⟩ := h
  rw [charsOf, withOffsets, charsOf]
  congr 2
  rw [byteLength_append, byteLength]
  omega

/-- The cut reaches from the place where the characters started to the one in front of the
character that is dropped. -/
theorem cutUntil_charsOf (h : mid ++ rest <:+ text) :
    cutUntil text (byteLength text - byteLength (mid ++ rest)) stop (charsOf text rest) =
      some ((takeUntil stop rest).map fun found => (mid ++ found.1, charsOf text found.2)) := by
  induction rest generalizing mid with
  | nil => rfl
  | cons c rest ih =>
    have hrest : c :: rest <:+ text := (List.suffix_append mid _).trans h
    rw [charsOf_cons hrest, cutUntil, takeUntil]
    by_cases hc : c = stop
    · rw [if_pos hc, if_pos hc]
      have hcut : cut text (byteLength text - byteLength (mid ++ c :: rest))
          (byteLength text - byteLength (c :: rest)) = some mid := by
        obtain ⟨before, rfl⟩ := h
        refine cut_eq_some_iff.mpr ⟨before, c :: rest, rfl, ?_, ?_⟩
        · rw [byteLength_append, Nat.add_sub_cancel]
        · rw [← List.append_assoc, byteLength_append _ (c :: rest), Nat.add_sub_cancel]
      rw [hcut, Option.map_some, Option.map_some, List.append_nil]
    · rw [if_neg hc, if_neg hc, List.append_cons, ih (by rwa [← List.append_cons])]
      cases takeUntil stop rest with
      | none => rfl
      | some found => simp

/-- An element is cut out as it is read. -/
theorem cutElement_charsOf {unterminated : Fault} {symbolOf : List Char → Except Fault Symbol}
    (h : c :: rest <:+ text) (hc : c.utf8Size = 1) :
    cutElement stop unterminated symbolOf text (byteLength text - byteLength (c :: rest))
      (charsOf text rest) =
      some (match takeUntil stop rest with
        | none => .error unterminated
        | some (inner, behind) => (symbolOf inner).map (·, charsOf text behind)) := by
  have hstart : byteLength text - byteLength (c :: rest) + 1 =
      byteLength text - byteLength ([] ++ rest) := by
    obtain ⟨before, rfl⟩ := h
    rw [byteLength_append, byteLength, hc, List.nil_append]
    omega
  have hrest : [] ++ rest <:+ text := (List.suffix_cons c rest).trans h
  unfold cutElement
  rw [hstart, cutUntil_charsOf hrest]
  cases takeUntil stop rest with
  | none => rfl
  | some found => rfl

theorem cutNonTerminal_eq (h : '<' :: rest <:+ text) :
    cutElement '>' .unterminatedNonTerminal ofName text
      (byteLength text - byteLength ('<' :: rest)) (charsOf text rest) =
      some ((readNonTerminal rest).map fun found => (found.1, charsOf text found.2)) := by
  rw [cutElement_charsOf h rfl, readNonTerminal]
  cases takeUntil '>' rest with
  | none => rfl
  | some found =>
    unfold ofName
    dsimp only
    split <;> rfl

theorem cutLiteral_eq (h : '"' :: rest <:+ text) :
    cutElement '"' .unterminatedLiteral ofLiteral text
      (byteLength text - byteLength ('"' :: rest)) (charsOf text rest) =
      some ((readLiteral rest).map fun found => (found.1, charsOf text found.2)) := by
  rw [cutElement_charsOf h rfl, readLiteral]
  cases takeUntil '"' rest with
  | none => rfl
  | some found =>
    obtain ⟨inner, behind⟩ := found
    cases inner with
    | nil => rfl
    | cons d inner => rfl

/-- Reads on behind an element. -/
def goOn (text : List Char) :
    Except Fault (Symbol × List (Nat × Char)) → Option (Except Fault (List Lexeme))
  | .error fault => some (.error fault)
  | .ok (s, behind) => (cutLexemes text behind).map (Except.map (Lexeme.element s :: ·))

variable {offset : Nat} {chars : List (Nat × Char)}
  {found : Except Fault (Symbol × List (Nat × Char))}

theorem cutLexemes_of_nonTerminal
    (h : cutElement '>' .unterminatedNonTerminal ofName text offset chars = some found) :
    cutLexemes text ((offset, '<') :: chars) = goOn text found := by
  rw [cutLexemes, if_neg (by decide), if_neg (by decide), if_pos rfl]
  split
  · rename_i hfound
    cases h.symm.trans hfound
  · rename_i hfound
    cases h.symm.trans hfound
    rfl
  · rename_i hfound
    cases h.symm.trans hfound
    rfl

theorem cutLexemes_of_literal
    (h : cutElement '"' .unterminatedLiteral ofLiteral text offset chars = some found) :
    cutLexemes text ((offset, '"') :: chars) = goOn text found := by
  rw [cutLexemes, if_neg (by decide), if_neg (by decide), if_neg (by decide), if_pos rfl]
  split
  · rename_i hfound
    cases h.symm.trans hfound
  · rename_i hfound
    cases h.symm.trans hfound
    rfl
  · rename_i hfound
    cases h.symm.trans hfound
    rfl

theorem cutLexemes_charsOf (h : rest <:+ text) :
    cutLexemes text (charsOf text rest) = some (lexemes text rest) := by
  -- The cases are those of the reading; what is behind an element is a final part again.
  fun_induction lexemes text rest with
  | case1 => rw [charsOf, withOffsets, cutLexemes]
  | case2 c cs hblank ih =>
    rw [charsOf_cons h, cutLexemes, if_pos hblank]
    exact ih ((List.suffix_cons c cs).trans h)
  | case3 cs hblank ih =>
    rw [charsOf_cons h, cutLexemes, if_neg hblank, if_pos rfl,
      ih ((List.suffix_cons _ cs).trans h)]
    rfl
  | case4 cs fault hfault =>
    rw [charsOf_cons h, cutLexemes_of_nonTerminal (cutNonTerminal_eq h), hfault]
    rfl
  | case5 cs s behind hfound _ _ ih =>
    obtain ⟨element, _, rfl⟩ := readNonTerminal_eq_ok_iff.mp hfound
    have hbehind : behind <:+ text :=
      (List.suffix_append element behind).trans ((List.suffix_cons _ _).trans h)
    rw [charsOf_cons h, cutLexemes_of_nonTerminal (cutNonTerminal_eq h), hfound]
    show (cutLexemes text (charsOf text behind)).map _ = _
    rw [ih hbehind, Option.map_some]
  | case6 cs fault hfault =>
    rw [charsOf_cons h, cutLexemes_of_literal (cutLiteral_eq h), hfault]
    rfl
  | case7 cs s behind hfound _ _ _ ih =>
    obtain ⟨element, _, rfl⟩ := readLiteral_eq_ok_iff.mp hfound
    have hbehind : behind <:+ text :=
      (List.suffix_append element behind).trans ((List.suffix_cons _ _).trans h)
    rw [charsOf_cons h, cutLexemes_of_literal (cutLiteral_eq h), hfound]
    show (cutLexemes text (charsOf text behind)).map _ = _
    rw [ih hbehind, Option.map_some]
  | case8 c cs hblank hbar hbracket hmark =>
    rw [charsOf_cons h, cutLexemes, if_neg hblank, if_neg hbar, if_neg hbracket, if_neg hmark]
    rfl

end Reading

/-- No text makes the reading cut outside of it or inside a character. -/
theorem cutAlternatives_eq (text : List Char) :
    cutAlternatives text = some (readAlternatives text) := by
  have hchars : charsOf text text = withOffsets 0 text := by rw [charsOf, Nat.sub_self]
  unfold cutAlternatives
  rw [← hchars, cutLexemes_charsOf List.suffix_rfl]
  rfl

end Bnf
end LL1
