import Std.Data.ExtTreeMap

/-!
# Maps that remember their order

A map is the list of its keys in the order in which they were first added, no key
twice, and a tree that gives each of them its value. Writing to a key that is
present replaces its value and leaves it where it is. The list of entries
determines the map. Two maps agree when they hold the same entries, whatever the
order.
-/

namespace LL1

structure OrderedMap (κ ν : Type) [Ord κ] [Std.TransOrd κ] where
  newestFirst : List κ
  tree : Std.ExtTreeMap κ ν
  nodup : newestFirst.Nodup
  mem_tree_iff : ∀ k, k ∈ tree ↔ k ∈ newestFirst

namespace OrderedMap

variable {κ ν : Type} [Ord κ] [Std.TransOrd κ]

def keys (m : OrderedMap κ ν) : List κ := m.newestFirst.reverse

def get? (m : OrderedMap κ ν) (k : κ) : Option ν := m.tree[k]?

def entries (m : OrderedMap κ ν) : List (κ × ν) :=
  m.keys.filterMap fun k => (m.get? k).map (k, ·)

def values (m : OrderedMap κ ν) : List ν := m.entries.map Prod.snd

def size (m : OrderedMap κ ν) : Nat := m.newestFirst.length

theorem nodup_keys (m : OrderedMap κ ν) : m.keys.Nodup :=
  List.pairwise_reverse.mpr (m.nodup.imp Ne.symm)

theorem length_keys (m : OrderedMap κ ν) : m.keys.length = m.size := List.length_reverse

instance : Membership κ (OrderedMap κ ν) := ⟨fun m k => k ∈ m.tree⟩

instance (k : κ) (m : OrderedMap κ ν) : Decidable (k ∈ m) :=
  inferInstanceAs (Decidable (k ∈ m.tree))

@[simp]
theorem mem_keys {m : OrderedMap κ ν} {k : κ} : k ∈ m.keys ↔ k ∈ m := by
  rw [keys, List.mem_reverse]
  exact (m.mem_tree_iff k).symm

theorem mem_iff {m : OrderedMap κ ν} {k : κ} : k ∈ m ↔ (m.get? k).isSome :=
  Std.ExtTreeMap.mem_iff_isSome_getElem?

theorem mem_entries_iff {m : OrderedMap κ ν} {k : κ} {v : ν} :
    (k, v) ∈ m.entries ↔ m.get? k = some v := by
  have hmem : m.get? k = some v → k ∈ m.keys := fun h => by simp [mem_iff, h]
  simp only [entries, List.mem_filterMap, Option.map_eq_some_iff]
  grind

theorem map_fst_entries (m : OrderedMap κ ν) : m.entries.map Prod.fst = m.keys := by
  have h : ∀ ks : List κ, (∀ k ∈ ks, k ∈ m) →
      (ks.filterMap fun k => (m.get? k).map (k, ·)).map Prod.fst = ks := by
    intro ks hks
    induction ks with
    | nil => rfl
    | cons k ks ih =>
      obtain ⟨v, hv⟩ := Option.isSome_iff_exists.mp (mem_iff.mp (hks k List.mem_cons_self))
      rw [List.filterMap_cons_some (b := (k, v)) (by simp [hv]), List.map_cons,
        ih fun j hj => hks j (List.mem_cons_of_mem k hj)]
  exact h m.keys fun k hk => mem_keys.mp hk

theorem length_entries (m : OrderedMap κ ν) : m.entries.length = m.size := by
  rw [← m.length_keys, ← m.map_fst_entries, List.length_map]

def empty : OrderedMap κ ν where
  newestFirst := []
  tree := ∅
  nodup := List.nodup_nil
  mem_tree_iff := by simp

instance : EmptyCollection (OrderedMap κ ν) := ⟨empty⟩

@[simp]
theorem keys_empty : (∅ : OrderedMap κ ν).keys = [] := rfl

@[simp]
theorem entries_empty : (∅ : OrderedMap κ ν).entries = [] := rfl

@[simp]
theorem get?_empty {k : κ} : (∅ : OrderedMap κ ν).get? k = none :=
  Std.ExtTreeMap.getElem?_empty

variable [Std.LawfulEqOrd κ]

@[ext]
theorem ext {m n : OrderedMap κ ν} (h : m.entries = n.entries) : m = n := by
  have hkeys : m.keys = n.keys := by rw [← map_fst_entries, h, map_fst_entries]
  have hget : ∀ k, m.get? k = n.get? k := fun k =>
    Option.ext fun v => by rw [← mem_entries_iff, h, mem_entries_iff]
  obtain ⟨newestFirst, tree, nodup, mem_tree_iff⟩ := m
  obtain ⟨newestFirst', tree', nodup', mem_tree_iff'⟩ := n
  obtain rfl : newestFirst = newestFirst' := List.reverse_inj.mp hkeys
  obtain rfl : tree = tree' := Std.ExtTreeMap.ext_getElem? hget
  rfl

theorem ext_get? {m n : OrderedMap κ ν} (hkeys : m.keys = n.keys)
    (hget : ∀ k, m.get? k = n.get? k) : m = n := by
  apply ext
  rw [entries, entries, hkeys, funext hget]

instance [DecidableEq κ] [DecidableEq ν] : DecidableEq (OrderedMap κ ν) := fun m n =>
  decidable_of_iff (m.entries = n.entries) ⟨ext, fun h => h ▸ rfl⟩

def insert (m : OrderedMap κ ν) (k : κ) (v : ν) : OrderedMap κ ν where
  newestFirst := if k ∈ m then m.newestFirst else k :: m.newestFirst
  tree := m.tree.insert k v
  nodup := by
    split
    · exact m.nodup
    · rename_i h
      exact List.nodup_cons.mpr ⟨fun hmem => h ((m.mem_tree_iff k).mpr hmem), m.nodup⟩
  mem_tree_iff j := by
    rw [Std.ExtTreeMap.mem_insert, Std.compare_eq_iff_eq, m.mem_tree_iff]
    split
    · rename_i h
      exact or_iff_right_of_imp fun heq => heq ▸ (m.mem_tree_iff k).mp h
    · rw [List.mem_cons, eq_comm]

theorem keys_insert (m : OrderedMap κ ν) (k : κ) (v : ν) :
    (m.insert k v).keys = if k ∈ m then m.keys else m.keys ++ [k] := by
  simp only [keys, insert]
  split
  · rfl
  · exact List.reverse_cons

@[simp]
theorem get?_insert [DecidableEq κ] (m : OrderedMap κ ν) (k j : κ) (v : ν) :
    (m.insert k v).get? j = if j = k then some v else m.get? j := by
  simp only [get?, insert, Std.ExtTreeMap.getElem?_insert, Std.compare_eq_iff_eq]
  grind

@[simp]
theorem mem_insert {m : OrderedMap κ ν} {k j : κ} {v : ν} : j ∈ m.insert k v ↔ j ∈ m ∨ j = k := by
  rw [← mem_keys, keys_insert]
  split <;> grind [mem_keys]

/-- Writes the entries of a list from left to right. -/
def insertMany (m : OrderedMap κ ν) (es : List (κ × ν)) : OrderedMap κ ν :=
  es.foldl (fun m e => m.insert e.1 e.2) m

theorem insertMany_cons (m : OrderedMap κ ν) (e : κ × ν) (es : List (κ × ν)) :
    m.insertMany (e :: es) = (m.insert e.1 e.2).insertMany es := rfl

theorem mem_insertMany {m : OrderedMap κ ν} {es : List (κ × ν)} {k : κ} :
    k ∈ m.insertMany es ↔ k ∈ m ∨ k ∈ es.map Prod.fst := by
  induction es generalizing m with
  | nil => simp [insertMany]
  | cons e es ih => rw [insertMany_cons, ih, mem_insert, List.map_cons, List.mem_cons, or_assoc]

/-- New keys go behind the old ones, in the order in which they are written. -/
theorem keys_insertMany {m : OrderedMap κ ν} {es : List (κ × ν)} (h : (es.map Prod.fst).Nodup) :
    (m.insertMany es).keys = m.keys ++ (es.map Prod.fst).filter fun k => k ∉ m := by
  induction es generalizing m with
  | nil => simp [insertMany]
  | cons e es ih =>
    obtain ⟨hnew, hnodup⟩ := List.nodup_cons.mp h
    have hrest : ((es.map Prod.fst).filter fun k => k ∉ m.insert e.1 e.2) =
        (es.map Prod.fst).filter fun k => k ∉ m := by
      refine List.filter_congr fun k hk => ?_
      have hne : k ≠ e.1 := fun heq => hnew (heq ▸ hk)
      simp [hne]
    rw [insertMany_cons, ih hnodup, hrest, keys_insert, List.map_cons]
    by_cases hmem : e.1 ∈ m
    · rw [if_pos hmem, List.filter_cons_of_neg (by simp [hmem])]
    · rw [if_neg hmem, List.filter_cons_of_pos (by simp [hmem]), List.append_assoc]
      rfl

theorem get?_insertMany_of_not_mem [DecidableEq κ] {m : OrderedMap κ ν} {es : List (κ × ν)}
    {k : κ} (h : k ∉ es.map Prod.fst) : (m.insertMany es).get? k = m.get? k := by
  induction es generalizing m with
  | nil => rfl
  | cons e es ih =>
    rw [List.map_cons, List.mem_cons, not_or] at h
    rw [insertMany_cons, ih h.2, get?_insert, if_neg h.1]

theorem get?_insertMany_of_mem [DecidableEq κ] {m : OrderedMap κ ν} {es : List (κ × ν)} {k : κ}
    {v : ν} (hnodup : (es.map Prod.fst).Nodup) (h : (k, v) ∈ es) :
    (m.insertMany es).get? k = some v := by
  induction es generalizing m with
  | nil => simp at h
  | cons e es ih =>
    obtain ⟨hnew, hnodup⟩ := List.nodup_cons.mp hnodup
    rw [insertMany_cons]
    rcases List.mem_cons.mp h with rfl | h
    · rw [get?_insertMany_of_not_mem hnew, get?_insert, if_pos rfl]
    · exact ih hnodup h

def ofList (es : List (κ × ν)) : OrderedMap κ ν := insertMany ∅ es

/-- The same entries, in any order. -/
def Agrees (m n : OrderedMap κ ν) : Prop :=
  (∀ k ∈ m.keys, m.get? k = n.get? k) ∧ ∀ k ∈ n.keys, k ∈ m

instance [DecidableEq ν] (m n : OrderedMap κ ν) : Decidable (m.Agrees n) :=
  inferInstanceAs (Decidable (_ ∧ _))

omit [Std.LawfulEqOrd κ] in
theorem agrees_iff {m n : OrderedMap κ ν} : m.Agrees n ↔ ∀ k, m.get? k = n.get? k := by
  constructor
  · intro h k
    by_cases hk : k ∈ m
    · exact h.1 k (mem_keys.mpr hk)
    · have hn : k ∉ n := fun hn => hk (h.2 k (mem_keys.mpr hn))
      rw [mem_iff] at hk hn
      simp_all
  · intro h
    exact ⟨fun k _ => h k, fun k hk => by rw [mem_keys, mem_iff] at hk; rw [mem_iff, h k]; exact hk⟩

end OrderedMap

end LL1
