import LL1.Proofs.Bnf.Literals
import LL1.Proofs.Conflict
import LL1.Proofs.Report.Predictions
import LL1.Proofs.Trace
import LL1.Report.Answer

/-!
# Displayed rules

The first character of a displayed symbol tells its kind and so the delimiter that ends it,
which the symbol does not hold. So a symbol can be split off any text that begins with it.
Behind a symbol of a sequence there is a blank, and what ends a sequence is neither a blank
nor the start of a symbol. Rules, and the conflict that a message is about, are therefore
told apart by their texts, whatever names and literals hold.
-/

namespace LL1

/-- Lists are told apart by the values of a function that tells their elements apart. -/
theorem map_inj_of_forall_mem {α β : Type} {f : α → β} {as bs : List α}
    (hf : ∀ a ∈ as, ∀ b ∈ bs, f a = f b → a = b) (h : as.map f = bs.map f) : as = bs := by
  induction as generalizing bs with
  | nil => exact (List.map_eq_nil_iff.mp h.symm).symm
  | cons a as ih =>
    cases bs with
    | nil => cases h
    | cons b bs =>
      obtain ⟨hfirst, hothers⟩ := List.cons.inj h
      have hab := hf a List.mem_cons_self b List.mem_cons_self hfirst
      rw [hab, ih (fun a ha b hb => hf a (List.mem_cons_of_mem _ ha) b (List.mem_cons_of_mem _ hb))
        hothers]

/-- Two texts in front of the first occurrence of a character. -/
theorem Bnf.append_stop_inj {stop : Char} {before before' rest rest' : List Char}
    (h : stop ∉ before) (h' : stop ∉ before')
    (heq : before ++ stop :: rest = before' ++ stop :: rest') :
    before = before' ∧ rest = rest' := by
  have htake : takeUntil stop (before ++ stop :: rest) = some (before, rest) :=
    takeUntil_eq_some_iff.mpr ⟨rfl, h⟩
  have htake' : takeUntil stop (before ++ stop :: rest) = some (before', rest') :=
    takeUntil_eq_some_iff.mpr ⟨heq, h'⟩
  exact Prod.mk.inj (Option.some.inj (htake.symm.trans htake'))

namespace Symbol

/-- The empty string, a name in angle brackets that holds none, or a literal. -/
def IsDelimited (s : Symbol) : Prop :=
  s = epsilon ∨
    (∃ name : List Char, '<' ∉ name ∧ '>' ∉ name ∧ s = nonTerminal (String.ofList name)) ∨
    s.IsLiteral

/-- The texts of delimited symbols and of the end mark. -/
inductive DisplayText : Symbol → List Char → Prop
  | epsilon : DisplayText epsilon ['ε']
  | endMark : DisplayText endMark ['$']
  | nonTerminal {name : List Char} (h : '>' ∉ name) :
    DisplayText (nonTerminal (String.ofList name)) ('<' :: (name ++ ['>']))
  | terminal {literal : List Char} (h : '"' ∉ literal) :
    DisplayText (terminal (String.ofList literal)) ('"' :: (literal ++ ['"']))

variable {s t : Symbol} {text text' rest rest' : List Char}

theorem IsDelimited.displayText (h : s.IsDelimited) : DisplayText s s.display.toList := by
  rcases h with rfl | ⟨name, _, hclosing, rfl⟩ | ⟨literal, _, hmark, rfl⟩
  · exact .epsilon
  · rw [toList_display_nonTerminal]
    exact .nonTerminal hclosing
  · rw [toList_display_terminal]
    exact .terminal hmark

/-- How displayed symbols begin. -/
def openings : List Char := ['ε', '$', '<', '"']

theorem DisplayText.exists_opening (h : DisplayText s text) :
    ∃ c ∈ openings, ∃ cs, text = c :: cs := by
  cases h with
  | epsilon => exact ⟨'ε', by decide, _, rfl⟩
  | endMark => exact ⟨'$', by decide, _, rfl⟩
  | nonTerminal _ => exact ⟨'<', by decide, _, rfl⟩
  | terminal _ => exact ⟨'"', by decide, _, rfl⟩

/-- A displayed symbol can be split off. -/
theorem DisplayText.append_inj (hs : DisplayText s text) (ht : DisplayText t text')
    (h : text ++ rest = text' ++ rest') : s = t ∧ rest = rest' := by
  cases hs with
  | epsilon =>
    cases ht with
    | epsilon => exact ⟨rfl, List.append_cancel_left h⟩
    | _ => simp at h
  | endMark =>
    cases ht with
    | endMark => exact ⟨rfl, List.append_cancel_left h⟩
    | _ => simp at h
  | nonTerminal hname =>
    cases ht with
    | nonTerminal hname' =>
      simp only [List.cons_append, List.append_assoc, List.cons.injEq, true_and] at h
      obtain ⟨rfl, hrest⟩ := Bnf.append_stop_inj hname hname' h
      exact ⟨rfl, hrest⟩
    | _ => simp at h
  | terminal hmark =>
    cases ht with
    | terminal hmark' =>
      simp only [List.cons_append, List.append_assoc, List.cons.injEq, true_and] at h
      obtain ⟨rfl, hrest⟩ := Bnf.append_stop_inj hmark hmark' h
      exact ⟨rfl, hrest⟩
    | _ => simp at h

theorem DisplayText.display_inj (hs : DisplayText s s.display.toList)
    (ht : DisplayText t t.display.toList) (h : s.display = t.display) : s = t := by
  have hlists : s.display.toList ++ [] = t.display.toList ++ [] := by rw [h]
  exact (hs.append_inj ht hlists).1

end Symbol

namespace Expression

variable {s : Symbol} {e f : Expression} {rest rest' : List Char}

/-- What is displayed of symbols behind another one. -/
def displayTail (e : Expression) : List Char := e.flatMap fun s => ' ' :: s.display.toList

theorem toList_display_cons (s : Symbol) (e : Expression) :
    (display (s :: e)).toList = s.display.toList ++ displayTail e := by
  induction e generalizing s with
  | nil => simp [display, displayTail]
  | cons t e ih =>
    rw [toList_display_cons_cons, ih]
    rfl

/-- No symbol begins here, and no further one comes behind a blank. -/
def Ends (rest : List Char) : Prop := ∀ c ∈ rest.head?, c ≠ ' ' ∧ c ∉ Symbol.openings

theorem displayTail_append_inj (he : ∀ s ∈ e, s.IsDelimited) (hf : ∀ s ∈ f, s.IsDelimited)
    (hrest : Ends rest) (hrest' : Ends rest')
    (h : displayTail e ++ rest = displayTail f ++ rest') : e = f ∧ rest = rest' := by
  induction e generalizing f with
  | nil =>
    cases f with
    | nil => exact ⟨rfl, h⟩
    | cons t f =>
      -- The blank in front of `t` would come right behind the first sequence.
      have hhead : ' ' ∈ rest.head? := by
        rw [displayTail, List.flatMap_nil, List.nil_append] at h
        rw [h]
        rfl
      exact absurd rfl (hrest _ hhead).1
  | cons s e ih =>
    cases f with
    | nil =>
      have hhead : ' ' ∈ rest'.head? := by
        rw [displayTail, displayTail, List.flatMap_nil, List.nil_append] at h
        rw [← h]
        rfl
      exact absurd rfl (hrest' _ hhead).1
    | cons t f =>
      obtain ⟨hs, hes⟩ := List.forall_mem_cons.mp he
      obtain ⟨ht, hfs⟩ := List.forall_mem_cons.mp hf
      have hsplit : s.display.toList ++ (displayTail e ++ rest) =
          t.display.toList ++ (displayTail f ++ rest') := by
        simpa [displayTail] using h
      obtain ⟨rfl, hothers⟩ := hs.displayText.append_inj ht.displayText hsplit
      obtain ⟨rfl, hbehind⟩ := ih hes hfs hothers
      exact ⟨rfl, hbehind⟩

theorem not_ends_display_cons (hs : s.IsDelimited) :
    ¬ Ends ((display (s :: e)).toList ++ rest) := by
  obtain ⟨c, hc, cs, hcs⟩ := hs.displayText.exists_opening
  intro hends
  rw [toList_display_cons, hcs] at hends
  exact (hends c rfl).2 hc

/-- A displayed sequence can be split off where it ends. -/
theorem display_append_inj (he : ∀ s ∈ e, s.IsDelimited) (hf : ∀ s ∈ f, s.IsDelimited)
    (hrest : Ends rest) (hrest' : Ends rest')
    (h : e.display.toList ++ rest = f.display.toList ++ rest') : e = f ∧ rest = rest' := by
  cases e with
  | nil =>
    cases f with
    | nil => exact ⟨rfl, h⟩
    | cons t f =>
      have hempty : (display []).toList ++ rest = rest := rfl
      rw [hempty] at h
      exact absurd (h ▸ hrest) (not_ends_display_cons (hf t List.mem_cons_self))
  | cons s e =>
    cases f with
    | nil =>
      have hempty : (display []).toList ++ rest' = rest' := rfl
      rw [hempty] at h
      exact absurd (h ▸ hrest') (not_ends_display_cons (he s List.mem_cons_self))
    | cons t f =>
      obtain ⟨hs, hes⟩ := List.forall_mem_cons.mp he
      obtain ⟨ht, hfs⟩ := List.forall_mem_cons.mp hf
      rw [toList_display_cons, toList_display_cons, List.append_assoc, List.append_assoc] at h
      obtain ⟨rfl, hothers⟩ := hs.displayText.append_inj ht.displayText h
      obtain ⟨rfl, hbehind⟩ := displayTail_append_inj hes hfs hrest hrest' hothers
      exact ⟨rfl, hbehind⟩

end Expression

/-! ## Rules -/

namespace Rule

variable {r r' : Rule} {rest rest' : List Char}

/-- All symbols of the rule are delimited. -/
structure IsDelimited (r : Rule) : Prop where
  left : r.left.IsDelimited
  right : ∀ s ∈ r.right, s.IsDelimited

theorem display_append_inj (hr : r.IsDelimited) (hr' : r'.IsDelimited)
    (hrest : Expression.Ends rest) (hrest' : Expression.Ends rest')
    (h : r.display.toList ++ rest = r'.display.toList ++ rest') : r = r' ∧ rest = rest' := by
  simp only [display, String.toList_append, List.append_assoc] at h
  obtain ⟨hleft, h⟩ := hr.left.displayText.append_inj hr'.left.displayText h
  obtain ⟨hright, hbehind⟩ := Expression.display_append_inj hr.right hr'.right hrest hrest'
    (List.append_cancel_left h)
  obtain ⟨left, right⟩ := r
  obtain ⟨left', right'⟩ := r'
  exact ⟨Rule.mk.injEq _ _ _ _ ▸ ⟨hleft, hright⟩, hbehind⟩

theorem display_inj (hr : r.IsDelimited) (hr' : r'.IsDelimited) :
    r.display = r'.display ↔ r = r' := by
  have hends : Expression.Ends [] := by simp [Expression.Ends]
  refine ⟨fun h => (display_append_inj hr hr' hends hends ?_).1, congrArg display⟩
  rw [h]

theorem map_display_inj {rs rs' : List Rule} (hrs : ∀ r ∈ rs, r.IsDelimited)
    (hrs' : ∀ r ∈ rs', r.IsDelimited) : rs.map display = rs'.map display ↔ rs = rs' :=
  ⟨map_inj_of_forall_mem (fun _ hr _ hr' => (display_inj (hrs _ hr) (hrs' _ hr')).mp),
    congrArg (List.map display)⟩

end Rule

/-! ## Messages -/

/-- The rules and the cell of a conflict have delimited symbols. The lookahead may be the end
mark. -/
structure Conflict.IsDelimited (c : Conflict) : Prop where
  key : c.cell.key.IsDelimited
  lookahead : Symbol.DisplayText c.cell.lookahead c.cell.lookahead.display.toList
  existing : c.existing.IsDelimited
  incoming : c.incoming.IsDelimited

theorem Failure.message_conflict (c : Conflict) : (conflict c).message =
    "the grammar is not LL(1): cell " ++ ("[" ++ c.cell.key.display ++ ", " ++
      c.cell.lookahead.display ++ "]") ++ " holds `" ++ c.existing.display ++
      "` and would also receive `" ++ c.incoming.display ++ "`" :=
  rfl

theorem Conflict.message_inj {c c' : Conflict} (h : c.IsDelimited) (h' : c'.IsDelimited) :
    (Failure.conflict c).message = (Failure.conflict c').message ↔ c = c' := by
  refine ⟨fun heq => ?_, congrArg fun c => (Failure.conflict c).message⟩
  have hends : ∀ cs : List Char, cs.head? = some '`' → Expression.Ends cs := by
    intro cs hcs c hc
    obtain rfl := Option.some.inj (hcs.symm.trans hc)
    decide
  have hlast : "`".toList.head? = some '`' := by decide
  have hmark : "` and would also receive `".toList.head? = some '`' := by decide
  rw [Failure.message_conflict, Failure.message_conflict] at heq
  -- The texts between the symbols matter by how they begin only.
  generalize "the grammar is not LL(1): cell " = opening, "[" = bracket, ", " = comma,
    "]" = closing, " holds `" = holds, "` and would also receive `" = between, "`" = last
    at heq hlast hmark
  have hbetween : ∀ cs, Expression.Ends (between.toList ++ cs) := fun cs =>
    hends _ (by rw [List.head?_append, hmark, Option.some_or])
  have hlists := congrArg String.toList heq
  simp only [String.toList_append, List.append_assoc] at hlists
  have hcell := List.append_cancel_left (List.append_cancel_left hlists)
  obtain ⟨hkey, hcell⟩ := h.key.displayText.append_inj h'.key.displayText hcell
  obtain ⟨hlookahead, hrules⟩ := h.lookahead.append_inj h'.lookahead
    (List.append_cancel_left hcell)
  have hrules := List.append_cancel_left (List.append_cancel_left hrules)
  obtain ⟨hexisting, hrules⟩ := Rule.display_append_inj h.existing h'.existing (hbetween _)
    (hbetween _) hrules
  obtain ⟨hincoming, _⟩ := Rule.display_append_inj h.incoming h'.incoming (hends _ hlast)
    (hends _ hlast) (List.append_cancel_left hrules)
  obtain ⟨⟨key, lookahead⟩, existing, incoming⟩ := c
  obtain ⟨⟨key', lookahead'⟩, existing', incoming'⟩ := c'
  obtain rfl : key = key' := hkey
  obtain rfl : lookahead = lookahead' := hlookahead
  obtain rfl : existing = existing' := hexisting
  obtain rfl : incoming = incoming' := hincoming
  rfl

/-! ## Grammars that are read -/

open Report

variable {g g' : Grammar} {a : Analysis} {t t' : Table} {c c' : Conflict} {rule : Rule}
  {key lookahead s : Symbol} {tokens : List String}

theorem Symbol.IsSpelled.isDelimited (h : s.IsSpelled) : s.IsDelimited := by
  rcases h.kinds with hs | ⟨name, hname, hs⟩ | hs
  · exact Or.inl hs
  · exact Or.inr (Or.inl ⟨name, hname.opening_not_mem, hname.closing_not_mem, hs⟩)
  · exact Or.inr (Or.inr hs)

namespace Grammar.IsPrepared

variable (hg : g.IsPrepared)
include hg

theorem isDelimited_key (hkey : g.isKey key) : key.IsDelimited :=
  (hg.isSpelled.isLeftSide hkey).isSpelled.isDelimited

theorem isDelimited (hrule : rule ∈ g.ruleList) : rule.IsDelimited := by
  have he := mem_ruleList.mp hrule
  exact ⟨hg.isDelimited_key (isKey_of_mem_alternatives he),
    fun _ hs => (hg.isSpelled.isSpelled he hs).isDelimited⟩

theorem displayText_of_mem_columns (hs : s ∈ g.terminals ++ [.endMark]) :
    Symbol.DisplayText s s.display.toList := by
  rw [List.mem_append, List.mem_singleton] at hs
  rcases hs with hs | rfl
  · obtain ⟨key, e, he, hmem⟩ := exists_of_mem_occurring (mem_terminals_iff.mp hs).1
    exact (hg.isSpelled.isSpelled he hmem).isDelimited.displayText
  · exact .endMark

theorem isDelimited_conflict (h : g.table = .error (.conflict c)) : c.IsDelimited := by
  obtain ⟨a, hsession, hfails⟩ := exists_session_of_conflict h
  have hgenuine := hsession.isGenuine_of_table hfails
  have hexisting := hgenuine.existing_isEarliest.mem
  have hpredicted := (hsession.mem_predictions_iff hexisting).mpr hgenuine.predicts_existing
  have hcolumn := hsession.analyzed.mem_columns_of_mem_predictions
    hg.isTextual.not_isKey_epsilon hexisting hpredicted
  refine ⟨?_, hg.displayText_of_mem_columns hcolumn, hg.isDelimited hexisting,
    hg.isDelimited hgenuine.incoming_isEarliest.mem⟩
  rw [← hgenuine.left_existing]
  exact (hg.isDelimited hexisting).left

theorem isDelimited_of_trace (h : g.table = .ok t)
    (hrule : rule ∈ (Run.ofTokens t tokens).trace) : rule.IsDelimited := by
  by_cases htokens : tokens = []
  · rw [htokens] at hrule
    cases hrule
  · obtain ⟨a, hsession, htable⟩ := exists_session_of_table h
    obtain ⟨_, _, hcell⟩ := (Run.passes_ofTokens htokens
      (hg.isTextual.ofTokens_spec h tokens).1).exists_cell hrule
    exact hg.isDelimited (hsession.mem_ruleList_of_get? htable hcell)

end Grammar.IsPrepared

/-! ## Tables -/

namespace Report.Grid

theorem entryJson_injective : Function.Injective entryJson := by
  intro entry entry' h
  cases entry with
  | none =>
    cases entry' with
    | none => rfl
    | some text => cases h
  | some text =>
    cases entry' with
    | none => cases h
    | some text' => rw [Json.string.inj h]

/-- A grid is told by its JSON value. -/
theorem json_injective : Function.Injective json := by
  intro grid grid' h
  obtain ⟨columns, rows⟩ := grid
  obtain ⟨columns', rows'⟩ := grid'
  simp only [json, Json.strings, Json.object.injEq, Json.array.injEq, List.cons.injEq,
    Prod.mk.injEq, true_and, and_true] at h
  obtain ⟨hcolumns, hrows⟩ := h
  have hstring : Function.Injective Json.string := fun _ _ => Json.string.inj
  have hrow : Function.Injective fun row : String × List (Option String) =>
      Json.object [("non_terminal", .string row.1), ("rules", .array (row.2.map entryJson))] := by
    intro row row' heq
    simp only [Json.object.injEq, List.cons.injEq, Prod.mk.injEq, true_and, and_true,
      Json.string.injEq, Json.array.injEq] at heq
    exact Prod.ext heq.1 (entryJson_injective.list_map heq.2)
  rw [hstring.list_map hcolumns, hrow.list_map hrows]

end Report.Grid

/-- The occupied cells of a table lie in its rows and columns, and its rules and columns
can be told apart. -/
structure Table.IsDelimited (t : Table) : Prop where
  key : ∀ key ∈ t.keys.toList, key.IsDelimited
  lookahead : ∀ s ∈ t.lookaheads, Symbol.DisplayText s s.display.toList
  rule {key lookahead : Symbol} {rule : Rule} :
    t.get? key lookahead = some rule → rule.IsDelimited
  mem_area {key lookahead : Symbol} {rule : Rule} :
    t.get? key lookahead = some rule → ⟨key, lookahead⟩ ∈ t.area

theorem Grammar.IsPrepared.isDelimited_table (hg : g.IsPrepared) (h : g.table = .ok t) :
    t.IsDelimited := by
  obtain ⟨a, hsession, ht⟩ := exists_session_of_table h
  refine ⟨fun key hkey => ?_, fun s hs => ?_, fun hget => ?_, hsession.mem_area_of_get? hg ht⟩
  · rw [hsession.toList_keys_table ht] at hkey
    exact hg.isDelimited_key (mem_keys.mp hkey)
  · rw [hsession.lookaheads_table ht] at hs
    exact hg.displayText_of_mem_columns hs
  · exact hg.isDelimited (hsession.mem_ruleList_of_get? ht hget)

namespace Table.IsDelimited

variable (h : t.IsDelimited) (h' : t'.IsDelimited)
include h h'

theorem get?_eq_of_display (heq : (t.get? key lookahead).map Rule.display =
    (t'.get? key lookahead).map Rule.display) : t.get? key lookahead = t'.get? key lookahead := by
  cases hget : t.get? key lookahead with
  | none =>
    rw [hget] at heq
    exact (Option.map_eq_none_iff.mp heq.symm).symm
  | some rule =>
    rw [hget] at heq
    obtain ⟨rule', hget', hdisplay⟩ := Option.map_eq_some_iff.mp heq.symm
    rw [hget', (Rule.display_inj (h'.rule hget') (h.rule hget)).mp hdisplay]

theorem get?_eq_of_area (harea : t.area = t'.area)
    (hcells : ∀ cell ∈ t.area, t.get? cell.key cell.lookahead = t'.get? cell.key cell.lookahead)
    (key lookahead : Symbol) : t.get? key lookahead = t'.get? key lookahead := by
  by_cases hmem : ⟨key, lookahead⟩ ∈ t.area
  · exact hcells _ hmem
  · have hnone : t.get? key lookahead = none :=
      Option.eq_none_iff_forall_not_mem.mpr fun rule hget => hmem (h.mem_area hget)
    have hnone' : t'.get? key lookahead = none :=
      Option.eq_none_iff_forall_not_mem.mpr fun rule hget => hmem (harea ▸ h'.mem_area hget)
    rw [hnone, hnone']

/-- The JSON value of a table tells its rows, its columns and its cells. -/
theorem json_inj : Predictions.json t = Predictions.json t' ↔
    t.keys.toList = t'.keys.toList ∧ t.lookaheads = t'.lookaheads ∧
      ∀ key lookahead, t.get? key lookahead = t'.get? key lookahead := by
  constructor
  · intro heq
    rw [← Grid.json_ofTable, ← Grid.json_ofTable] at heq
    obtain ⟨hcolumns, hrows⟩ := Grid.mk.inj (Grid.json_injective heq)
    have hlookaheads : t.lookaheads = t'.lookaheads :=
      map_inj_of_forall_mem (fun _ hs _ hs' => (h.lookahead _ hs).display_inj (h'.lookahead _ hs'))
        hcolumns
    have hkeys : t.keys.toList = t'.keys.toList := by
      have hnames := congrArg (List.map Prod.fst) hrows
      rw [List.map_map, List.map_map] at hnames
      exact map_inj_of_forall_mem (fun _ hs _ hs' =>
        (h.key _ hs).displayText.display_inj (h'.key _ hs').displayText) hnames
    have harea : t.area = t'.area := by rw [area, area, hkeys, hlookaheads]
    refine ⟨hkeys, hlookaheads, h.get?_eq_of_area h' harea fun cell hcell => ?_⟩
    obtain ⟨hkey, hlookahead⟩ := mem_area_iff.mp hcell
    rw [← hkeys, List.map_inj_left] at hrows
    have hrow := (Prod.mk.inj (hrows _ hkey)).2
    rw [row, row, ← hlookaheads, List.map_map, List.map_map, List.map_inj_left] at hrow
    exact h.get?_eq_of_display h' (hrow _ hlookahead)
  · intro hsame
    obtain ⟨hkeys, hlookaheads, hcells⟩ := hsame
    have hget : t.get? = t'.get? := funext fun key => funext (hcells key)
    unfold Predictions.json row
    rw [hkeys, hlookaheads, hget]

end Table.IsDelimited

/-! ## Reports -/

/-- What is reported about two grammars is the same text only where it is about the same
rules. -/
structure Grammar.ReportsApart (g g' : Grammar) : Prop where
  rules : ∀ r ∈ g.ruleList, ∀ r' ∈ g'.ruleList,
    r.display = r'.display ↔ r.left = r'.left ∧ r.right = r'.right
  lines {t t' : Table} (h : g.table = .ok t) (h' : g'.table = .ok t')
    (tokens tokens' : List String) :
    (Run.ofTokens t tokens).trace.map Rule.display =
      (Run.ofTokens t' tokens').trace.map Rule.display ↔
    (Run.ofTokens t tokens).trace = (Run.ofTokens t' tokens').trace
  answers {t t' : Table} (h : g.table = .ok t) (h' : g'.table = .ok t')
    (tokens tokens' : List String) :
    Answer.ofRun (Run.ofTokens t tokens) = Answer.ofRun (Run.ofTokens t' tokens') ↔
      (Run.ofTokens t tokens).isAccepting = (Run.ofTokens t' tokens').isAccepting ∧
        (Run.ofTokens t tokens).trace = (Run.ofTokens t' tokens').trace
  tables {t t' : Table} (h : g.table = .ok t) (h' : g'.table = .ok t') :
    Predictions.json t = Predictions.json t' ↔
      t.keys.toList = t'.keys.toList ∧ t.lookaheads = t'.lookaheads ∧
        ∀ key lookahead, t.get? key lookahead = t'.get? key lookahead
  messages {c c' : Conflict} (h : g.table = .error (.conflict c))
    (h' : g'.table = .error (.conflict c')) :
    (Failure.conflict c).message = (Failure.conflict c').message ↔ c = c'

theorem Rule.display_eq_iff {r r' : Rule} (hr : r.IsDelimited) (hr' : r'.IsDelimited) :
    r.display = r'.display ↔ r.left = r'.left ∧ r.right = r'.right := by
  rw [display_inj hr hr', ← Rule.mk.injEq]

theorem Grammar.IsPrepared.reportsApart (hg : g.IsPrepared) (hg' : g'.IsPrepared) :
    g.ReportsApart g' := by
  have hlines : ∀ {t t' : Table}, g.table = .ok t → g'.table = .ok t' → ∀ tokens tokens',
      (Run.ofTokens t tokens).trace.map Rule.display =
        (Run.ofTokens t' tokens').trace.map Rule.display ↔
      (Run.ofTokens t tokens).trace = (Run.ofTokens t' tokens').trace := fun h h' _ _ =>
    Rule.map_display_inj (fun _ => hg.isDelimited_of_trace h) fun _ => hg'.isDelimited_of_trace h'
  refine ⟨fun r hr r' hr' => ?_, hlines, fun h h' tokens tokens' => ?_, fun h h' => ?_,
    fun h h' => ?_⟩
  · exact Rule.display_eq_iff (hg.isDelimited hr) (hg'.isDelimited hr')
  · have hstring : Function.Injective Json.string := fun _ _ => Json.string.inj
    rw [← hlines h h']
    simp only [Answer.ofRun, Json.strings, Json.object.injEq, List.cons.injEq, Prod.mk.injEq,
      Json.bool.injEq, Json.array.injEq, hstring.list_map.eq_iff, true_and, and_true]
  · exact (hg.isDelimited_table h).json_inj (hg'.isDelimited_table h')
  · exact Conflict.message_inj (hg.isDelimited_conflict h) (hg'.isDelimited_conflict h')

/-- A displayed rule tells its left side and the symbols of its right side, and so does
whatever is reported about grammars that are read. -/
theorem Rule.display_tells :
    (∀ r r' : Rule, r.IsDelimited → r'.IsDelimited →
      (r.display = r'.display ↔ r.left = r'.left ∧ r.right = r'.right)) ∧
    ∀ g g' : Grammar, g.IsPrepared → g'.IsPrepared → g.ReportsApart g' :=
  ⟨fun _ _ => display_eq_iff, fun _ _ => Grammar.IsPrepared.reportsApart⟩

/-- A name of quotation marks around a blank, and literals that look like the empty string
and the beginning of a rule. -/
def disguisedText : String := "<S> ::= \"ε\" <\" \"> | \"\"\n<\" \"> ::= \"<S> -> \""

/-- The same but for one more empty string. -/
def disguisedTwiceText : String := "<S> ::= \"ε\" <\" \"> | \"\" \"\"\n<\" \"> ::= \"<S> -> \""

def clashingText : String := "<S> ::= \"ε\" | \"ε\" \"\""

def clashingTwiceText : String := "<S> ::= \"ε\" \"\" | \"ε\""

def literalRule : Rule := ⟨.nonTerminal "S", [.terminal "ε"]⟩

def literalTwiceRule : Rule := ⟨.nonTerminal "S", [.terminal "ε", .epsilon]⟩

theorem Rule.display_tells_disguised :
    literalRule.display ≠ literalTwiceRule.display ∧
      (∃ g g' t t', Bnf.read disguisedText = .ok g ∧ Bnf.read disguisedTwiceText = .ok g' ∧
        g.table = .ok t ∧ g'.table = .ok t' ∧ Predictions.json t ≠ Predictions.json t' ∧
        (Run.ofTokens t ["ε"]).trace.map display ≠
          (Run.ofTokens t' ["ε", "<S> -> "]).trace.map display) ∧
      ∃ g g' c c', Bnf.read clashingText = .ok g ∧ Bnf.read clashingTwiceText = .ok g' ∧
        g.table = .error (.conflict c) ∧ g'.table = .error (.conflict c') ∧
        (Failure.conflict c).message ≠ (Failure.conflict c').message := by
  have hleft : (Symbol.nonTerminal "S").IsDelimited :=
    Or.inr (Or.inl ⟨['S'], by decide, by decide, rfl⟩)
  have hliteral : (Symbol.terminal "ε").IsDelimited :=
    Or.inr (Or.inr ⟨['ε'], by decide, by decide, rfl⟩)
  have hrules := display_tells.1 literalRule literalTwiceRule
    ⟨hleft, List.forall_mem_singleton.mpr hliteral⟩
    ⟨hleft, List.forall_mem_cons.mpr ⟨hliteral, List.forall_mem_singleton.mpr (Or.inl rfl)⟩⟩
  refine ⟨fun heq => absurd (hrules.mp heq).2 (by decide), ?_, ?_⟩
  · have heval : (Bnf.read disguisedText).map (fun g => g.table.map fun t =>
        (t.get? (.nonTerminal "S") .endMark, (Run.ofTokens t ["ε"]).trace.length)) =
        .ok (.ok (some ⟨.nonTerminal "S", [.epsilon]⟩, 1)) := by
      decide +kernel
    have heval' : (Bnf.read disguisedTwiceText).map (fun g => g.table.map fun t =>
        (t.get? (.nonTerminal "S") .endMark, (Run.ofTokens t ["ε", "<S> -> "]).trace.length)) =
        .ok (.ok (some ⟨.nonTerminal "S", [.epsilon, .epsilon]⟩, 2)) := by
      decide +kernel
    obtain ⟨g, hread, heval⟩ := map_eq_ok_iff.mp heval
    obtain ⟨t, ht, heval⟩ := map_eq_ok_iff.mp heval
    obtain ⟨hcell, hlength⟩ := Prod.mk.inj heval
    obtain ⟨g', hread', heval'⟩ := map_eq_ok_iff.mp heval'
    obtain ⟨t', ht', heval'⟩ := map_eq_ok_iff.mp heval'
    obtain ⟨hcell', hlength'⟩ := Prod.mk.inj heval'
    have hapart := display_tells.2 g g' (.read hread) (.read hread')
    refine ⟨g, g', t, t', hread, hread', ht, ht', fun heq => ?_, fun heq => ?_⟩
    · have hcells := ((hapart.tables ht ht').mp heq).2.2 (.nonTerminal "S") .endMark
      rw [hcell, hcell'] at hcells
      exact absurd hcells (by decide)
    · have htraces := (hapart.lines ht ht' _ _).mp heq
      rw [htraces, hlength'] at hlength
      cases hlength
  · have heval : (Bnf.read clashingText).map (fun g => g.table.map fun _ => ()) = .ok (.error
        (.conflict ⟨⟨.nonTerminal "S", .terminal "ε"⟩, literalRule, literalTwiceRule⟩)) := by
      decide +kernel
    have heval' : (Bnf.read clashingTwiceText).map (fun g => g.table.map fun _ => ()) = .ok (.error
        (.conflict ⟨⟨.nonTerminal "S", .terminal "ε"⟩, literalTwiceRule, literalRule⟩)) := by
      decide +kernel
    obtain ⟨g, hread, heval⟩ := map_eq_ok_iff.mp heval
    obtain ⟨g', hread', heval'⟩ := map_eq_ok_iff.mp heval'
    have hfails := map_eq_error_iff.mp heval
    have hfails' := map_eq_error_iff.mp heval'
    have hapart := display_tells.2 g g' (.read hread) (.read hread')
    refine ⟨g, g', _, _, hread, hread', hfails, hfails', fun heq => ?_⟩
    exact absurd ((hapart.messages hfails hfails').mp heq) (by decide)

end LL1
