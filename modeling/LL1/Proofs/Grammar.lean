import LL1.Grammar

/-!
# Keys, alternatives and symbols

The entries of a grammar are its keys with their alternatives, so what is said
about either can be read from the other.
-/

namespace LL1
namespace Grammar

variable {g : Grammar} {s key : Symbol} {e : Expression}

theorem mem_keys : s ∈ g.keys ↔ g.isKey s := by
  unfold keys isKey
  rw [OrderedMap.mem_keys, decide_eq_true_eq]

theorem nodup_keys (g : Grammar) : g.keys.Nodup := g.rules.nodup_keys

theorem isKey_of_mem_alternatives (h : e ∈ g.alternatives s) : g.isKey s := by
  unfold alternatives at h
  cases hs : g.rules.get? s with
  | none => simp [hs] at h
  | some alternatives => simp [isKey, OrderedMap.mem_iff, hs]

theorem alternatives_of_not_isKey (h : ¬ g.isKey key) : g.alternatives key = [] :=
  List.eq_nil_iff_forall_not_mem.mpr fun _ he => h (isKey_of_mem_alternatives he)

theorem alternatives_of_mem_entries {body : List Expression}
    (h : (key, body) ∈ g.rules.entries) : g.alternatives key = body := by
  rw [alternatives, OrderedMap.mem_entries_iff.mp h, Option.getD_some]

theorem entries_eq (g : Grammar) :
    g.rules.entries = g.keys.map fun key => (key, g.alternatives key) := by
  have h : g.rules.entries = g.rules.entries.map fun b => (b.1, g.alternatives b.1) := by
    refine (List.map_id _).symm.trans (List.map_congr_left fun b hb => ?_)
    have hbody : g.alternatives b.1 = b.2 := alternatives_of_mem_entries hb
    rw [hbody]
    rfl
  rw [h, keys, ← OrderedMap.map_fst_entries, List.map_map]
  rfl

theorem mem_entries_of_isKey (h : g.isKey key) : (key, g.alternatives key) ∈ g.rules.entries := by
  rw [entries_eq]
  exact List.mem_map.mpr ⟨key, mem_keys.mpr h, rfl⟩

theorem mem_ruleList {rule : Rule} : rule ∈ g.ruleList ↔ rule.right ∈ g.alternatives rule.left := by
  obtain ⟨left, right⟩ := rule
  unfold ruleList
  rw [List.mem_flatMap]
  constructor
  · intro h
    obtain ⟨entry, hentry, hrule⟩ := h
    obtain ⟨e, he, heq⟩ := List.mem_map.mp hrule
    obtain ⟨rfl, rfl⟩ := Rule.mk.inj heq
    rw [alternatives_of_mem_entries hentry]
    exact he
  · intro h
    refine ⟨_, mem_entries_of_isKey (isKey_of_mem_alternatives h), ?_⟩
    exact List.mem_map.mpr ⟨right, h, rfl⟩

theorem isKey_ofStart : (ofStart key).isKey s ↔ s = key := by
  unfold ofStart isKey
  rw [decide_eq_true_eq, OrderedMap.mem_insert, ← OrderedMap.mem_keys, OrderedMap.keys_empty]
  simp

theorem alternatives_ofStart : (ofStart key).alternatives s = [] := by
  unfold ofStart alternatives
  rw [OrderedMap.get?_insert, OrderedMap.get?_empty]
  split <;> rfl

theorem isKey_add {rights : List Expression} :
    (g.add key rights).isKey s ↔ g.isKey s ∨ s = key := by
  unfold add isKey
  rw [decide_eq_true_eq, decide_eq_true_eq, OrderedMap.mem_insert]

/-- A new key is the last one. -/
theorem keys_add {rights : List Expression} :
    (g.add key rights).keys = if key ∈ g.keys then g.keys else g.keys ++ [key] := by
  have hkeys : (g.add key rights).keys = if key ∈ g.rules then g.keys else g.keys ++ [key] :=
    OrderedMap.keys_insert g.rules key (g.alternatives key ++ rights)
  have hmem : key ∈ g.keys ↔ key ∈ g.rules := OrderedMap.mem_keys
  rw [hkeys]
  by_cases hkey : key ∈ g.rules
  · rw [if_pos hkey, if_pos (hmem.mpr hkey)]
  · rw [if_neg hkey, if_neg fun h => hkey (hmem.mp h)]

theorem alternatives_add {rights : List Expression} :
    (g.add key rights).alternatives s =
      if s = key then g.alternatives key ++ rights else g.alternatives s := by
  have hget : (g.add key rights).rules.get? s =
      if s = key then some (g.alternatives key ++ rights) else g.rules.get? s :=
    OrderedMap.get?_insert g.rules key s (g.alternatives key ++ rights)
  rw [alternatives, hget]
  split <;> rfl

theorem mem_occurring (he : e ∈ g.alternatives key) (hs : s ∈ e) : s ∈ g.occurring := by
  have hentry := mem_entries_of_isKey (isKey_of_mem_alternatives he)
  have hvalues : g.alternatives key ∈ g.rules.values := List.mem_map.mpr ⟨_, hentry, rfl⟩
  rw [occurring, OrderedSet.mem_ofList]
  exact List.mem_flatten.mpr ⟨e, List.mem_flatten.mpr ⟨_, hvalues, he⟩, hs⟩

theorem exists_of_mem_occurring (h : s ∈ g.occurring) :
    ∃ key, ∃ e ∈ g.alternatives key, s ∈ e := by
  rw [occurring, OrderedSet.mem_ofList] at h
  obtain ⟨e, he, hs⟩ := List.mem_flatten.mp h
  obtain ⟨body, hbody, he⟩ := List.mem_flatten.mp he
  obtain ⟨entry, hentry, rfl⟩ := List.mem_map.mp hbody
  refine ⟨entry.1, e, ?_, hs⟩
  rw [alternatives_of_mem_entries hentry]
  exact he

theorem mem_symbols_iff : s ∈ g.symbols ↔ g.isKey s ∨ s ∈ g.occurring := by
  rw [symbols, OrderedSet.mem_insertMany, OrderedSet.mem_ofList, mem_keys, OrderedSet.mem_toList]

theorem mem_symbols_of_isKey (h : g.isKey key) : key ∈ g.symbols := mem_symbols_iff.mpr (Or.inl h)

theorem mem_symbols_of_mem_alternatives (he : e ∈ g.alternatives key) (hs : s ∈ e) :
    s ∈ g.symbols := mem_symbols_iff.mpr (Or.inr (mem_occurring he hs))

theorem mem_symbols_of_mem_terminals (h : s ∈ g.terminals) : s ∈ g.symbols :=
  mem_symbols_iff.mpr (Or.inr (OrderedSet.mem_toList.mp (List.mem_filter.mp h).1))

theorem not_isKey_of_mem_terminals (h : s ∈ g.terminals) : ¬ g.isKey s := by
  have h := (List.mem_filter.mp h).2
  rw [Bool.and_eq_true, Bool.not_eq_true', Bool.not_eq_true'] at h
  rw [h.2]
  exact Bool.false_ne_true

/-! ## The rules in their order -/

theorem ruleList_eq (g : Grammar) :
    g.ruleList = g.keys.flatMap fun key => (g.alternatives key).map (Rule.mk key) := by
  rw [ruleList, entries_eq, List.flatMap_map]

theorem flatMap_ite_eq {α : Type} {keys : List Symbol} (hnodup : keys.Nodup) (key : Symbol)
    (block : List α) :
    (keys.flatMap fun k => if k = key then block else []) = if key ∈ keys then block else [] := by
  induction keys with
  | nil => rfl
  | cons k keys ih =>
    obtain ⟨hnew, hnodup⟩ := List.nodup_cons.mp hnodup
    rw [List.flatMap_cons, ih hnodup]
    by_cases hk : k = key
    · rw [if_pos hk, if_neg (hk ▸ hnew), if_pos (by simp [hk]), List.append_nil]
    · rw [if_neg hk, List.nil_append]
      simp [Ne.symm hk]

/-- The rules of a key are its alternatives in their order. -/
theorem filter_ruleList (g : Grammar) (key : Symbol) :
    g.ruleList.filter (·.left = key) = (g.alternatives key).map (Rule.mk key) := by
  have hblock : ∀ k, ((g.alternatives k).map (Rule.mk k)).filter (·.left = key) =
      if k = key then (g.alternatives key).map (Rule.mk key) else [] := by
    intro k
    by_cases hk : k = key
    · rw [if_pos hk, hk, List.filter_eq_self.mpr (by simp)]
    · rw [if_neg hk, List.filter_eq_nil_iff.mpr (by simp [hk])]
  rw [ruleList_eq, List.filter_flatMap, funext hblock, flatMap_ite_eq g.nodup_keys]
  by_cases hkey : g.isKey key
  · rw [if_pos (mem_keys.mpr hkey)]
  · rw [if_neg fun h => hkey (mem_keys.mp h), alternatives_of_not_isKey hkey, List.map_nil]

theorem eraseDups_flatMap_replicate {keys : List Symbol} {count : Symbol → Nat}
    (hnodup : keys.Nodup) (h : ∀ key ∈ keys, count key ≠ 0) :
    (keys.flatMap fun key => List.replicate (count key) key).eraseDups = keys := by
  induction keys with
  | nil => rfl
  | cons key keys ih =>
    obtain ⟨hnew, hnodup⟩ := List.nodup_cons.mp hnodup
    obtain ⟨hcount, hothers⟩ := List.forall_mem_cons.mp h
    obtain ⟨n, hn⟩ := Nat.exists_eq_succ_of_ne_zero hcount
    have hrest : ((keys.flatMap fun key => List.replicate (count key) key).filter
        fun k => !k == key) = keys.flatMap fun key => List.replicate (count key) key := by
      refine List.filter_eq_self.mpr fun k hk => ?_
      obtain ⟨other, hother, hmem⟩ := List.mem_flatMap.mp hk
      obtain rfl := List.eq_of_mem_replicate hmem
      have hne : k ≠ key := fun heq => hnew (heq ▸ hother)
      simp [hne]
    have hown : (List.replicate n key).filter (fun k => !k == key) = [] := by simp
    rw [List.flatMap_cons, hn, List.replicate_succ, List.cons_append, List.eraseDups_cons,
      List.filter_append, hown, hrest, List.nil_append, ih hnodup hothers]

/-- If no key lacks alternatives, the rules name the keys in their order. -/
theorem eraseDups_left_ruleList (h : ∀ key, g.isKey key → g.alternatives key ≠ []) :
    (g.ruleList.map Rule.left).eraseDups = g.keys := by
  have hlefts : g.ruleList.map Rule.left =
      g.keys.flatMap fun key => List.replicate (g.alternatives key).length key := by
    simp [ruleList_eq, List.map_flatMap, Function.comp_def, List.map_const']
  rw [hlefts, eraseDups_flatMap_replicate g.nodup_keys]
  intro key hkey
  exact fun hlength => h key (mem_keys.mp hkey) (List.length_eq_zero_iff.mp hlength)

end Grammar
end LL1
