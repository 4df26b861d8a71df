import Std.Data.ExtTreeSet

/-!
# Sets that remember their order

A set is the list of its elements in the order in which they were first added.
Adding an element again leaves it where it is, so the list never repeats one. A
tree of the same elements decides membership. It does not depend on the order in
which they came, so the list determines the set.
-/

namespace LL1

structure OrderedSet (α : Type) [Ord α] [Std.TransOrd α] where
  newestFirst : List α
  index : Std.ExtTreeSet α
  nodup : newestFirst.Nodup
  mem_index_iff : ∀ a, a ∈ index ↔ a ∈ newestFirst

namespace OrderedSet

variable {α : Type} [Ord α] [Std.TransOrd α]

def toList (s : OrderedSet α) : List α := s.newestFirst.reverse

def size (s : OrderedSet α) : Nat := s.newestFirst.length

theorem nodup_toList (s : OrderedSet α) : s.toList.Nodup :=
  List.pairwise_reverse.mpr (s.nodup.imp Ne.symm)

theorem length_toList (s : OrderedSet α) : s.toList.length = s.size := List.length_reverse

instance : Membership α (OrderedSet α) := ⟨fun s a => a ∈ s.index⟩

instance (a : α) (s : OrderedSet α) : Decidable (a ∈ s) :=
  inferInstanceAs (Decidable (a ∈ s.index))

@[simp]
theorem mem_toList {s : OrderedSet α} {a : α} : a ∈ s.toList ↔ a ∈ s := by
  rw [toList, List.mem_reverse]
  exact (s.mem_index_iff a).symm

def empty : OrderedSet α where
  newestFirst := []
  index := ∅
  nodup := List.nodup_nil
  mem_index_iff := by simp

instance : EmptyCollection (OrderedSet α) := ⟨empty⟩

@[simp]
theorem toList_empty : (∅ : OrderedSet α).toList = [] := rfl

@[simp]
theorem not_mem_empty {a : α} : a ∉ (∅ : OrderedSet α) := by
  rw [← mem_toList]
  simp

variable [Std.LawfulEqOrd α]

@[ext]
theorem ext {s t : OrderedSet α} (h : s.toList = t.toList) : s = t := by
  obtain ⟨newestFirst, index, nodup, mem_index_iff⟩ := s
  obtain ⟨newestFirst', index', nodup', mem_index_iff'⟩ := t
  obtain rfl : newestFirst = newestFirst' := List.reverse_inj.mp h
  obtain rfl : index = index' := Std.ExtTreeSet.ext_mem fun a => by
    rw [mem_index_iff, mem_index_iff']
  rfl

instance [DecidableEq α] : DecidableEq (OrderedSet α) := fun s t =>
  decidable_of_iff (s.newestFirst = t.newestFirst)
    ⟨fun h => ext (congrArg List.reverse h), fun h => h ▸ rfl⟩

def insert (s : OrderedSet α) (a : α) : OrderedSet α :=
  if h : a ∈ s then s
  else
    { newestFirst := a :: s.newestFirst
      index := s.index.insert a
      nodup := List.nodup_cons.mpr ⟨fun hmem => h ((s.mem_index_iff a).mpr hmem), s.nodup⟩
      mem_index_iff := fun b => by
        rw [Std.ExtTreeSet.mem_insert, Std.compare_eq_iff_eq, s.mem_index_iff, List.mem_cons,
          eq_comm] }

theorem toList_insert (s : OrderedSet α) (a : α) :
    (s.insert a).toList = if a ∈ s then s.toList else s.toList ++ [a] := by
  unfold insert
  split
  · rfl
  · exact List.reverse_cons

@[simp]
theorem mem_insert {s : OrderedSet α} {a b : α} : b ∈ s.insert a ↔ b ∈ s ∨ b = a := by
  rw [← mem_toList, toList_insert]
  split <;> grind [mem_toList]

def singleton (a : α) : OrderedSet α := insert ∅ a

@[simp]
theorem toList_singleton (a : α) : (singleton a).toList = [a] := by
  rw [singleton, toList_insert, if_neg not_mem_empty, toList_empty, List.nil_append]

/-- Adds the elements of a list from left to right. -/
def insertMany (s : OrderedSet α) (as : List α) : OrderedSet α := as.foldl insert s

@[simp]
theorem mem_insertMany {s : OrderedSet α} {as : List α} {b : α} :
    b ∈ s.insertMany as ↔ b ∈ s ∨ b ∈ as := by
  induction as generalizing s with
  | nil => simp [insertMany]
  | cons a as ih =>
    have h : s.insertMany (a :: as) = (s.insert a).insertMany as := rfl
    rw [h, ih, mem_insert, List.mem_cons, or_assoc]

/-- New elements go behind the old ones. -/
theorem toList_isPrefix_insert (s : OrderedSet α) (a : α) : s.toList <+: (s.insert a).toList := by
  rw [toList_insert]
  split
  · exact List.prefix_rfl
  · exact List.prefix_append _ _

theorem toList_isPrefix_insertMany (s : OrderedSet α) (as : List α) :
    s.toList <+: (s.insertMany as).toList := by
  induction as generalizing s with
  | nil => exact List.prefix_rfl
  | cons a as ih => exact (s.toList_isPrefix_insert a).trans (ih (s.insert a))

def ofList (as : List α) : OrderedSet α := insertMany ∅ as

@[simp]
theorem mem_ofList {as : List α} {b : α} : b ∈ ofList as ↔ b ∈ as := by
  rw [ofList, mem_insertMany]
  simp

/-- New elements without repetitions go behind the old ones in their order. -/
theorem toList_insertMany_of_nodup {s : OrderedSet α} {as : List α} (h : as.Nodup)
    (hnew : ∀ a ∈ as, a ∉ s) : (s.insertMany as).toList = s.toList ++ as := by
  induction as generalizing s with
  | nil => exact (List.append_nil _).symm
  | cons a as ih =>
    obtain ⟨hfirst, hnodup⟩ := List.nodup_cons.mp h
    obtain ⟨ha, hothers⟩ := List.forall_mem_cons.mp hnew
    have hrest : ∀ b ∈ as, b ∉ s.insert a := by
      intro b hb hmem
      rcases mem_insert.mp hmem with hs | rfl
      · exact hothers b hb hs
      · exact hfirst hb
    have hcons : s.insertMany (a :: as) = (s.insert a).insertMany as := rfl
    rw [hcons, ih hnodup hrest, toList_insert, if_neg ha, List.append_assoc]
    rfl

theorem toList_ofList_of_nodup {as : List α} (h : as.Nodup) : (ofList as).toList = as := by
  rw [ofList, toList_insertMany_of_nodup h (fun _ _ => not_mem_empty), toList_empty,
    List.nil_append]

end OrderedSet

end LL1
