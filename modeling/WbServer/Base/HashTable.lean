import Mathlib.Tactic

/-!
# Hash tables

`HashTable key` is a collection of elements with pairwise distinct keys, as the list in which
an iteration finds them. An insertion keeps the element that is already there; otherwise it
may rearrange the table, so that nothing is said about the order.
-/

variable {α κ : Type*}

/-- A finite collection with distinct keys, in the order of its iteration. -/
structure HashTable (key : α → κ) where
  toList : List α
  nodup : (toList.map key).Nodup

/-- The order in which a table is iterated over, given what has been inserted. -/
structure HashOrder (α : Type*) where
  arrange : List α → List α
  perm : ∀ l, (arrange l).Perm l

namespace HashTable

variable {key : α → κ}

/-- The empty table. -/
def empty (key : α → κ) : HashTable key := ⟨[], List.nodup_nil⟩

/-- Inserts an element, unless one with the same key is there. -/
def insert [DecidableEq κ] (order : HashOrder α) (s : HashTable key) (x : α) : HashTable key :=
  if h : key x ∈ s.toList.map key then s
  else
    { toList := order.arrange (x :: s.toList)
      nodup := by
        rw [((order.perm (x :: s.toList)).map key).nodup_iff, List.map_cons, List.nodup_cons]
        exact ⟨h, s.nodup⟩ }

/-- Inserting an element with a new key. -/
theorem insert_perm [DecidableEq κ] (order : HashOrder α) {s : HashTable key} {x : α}
    (h : key x ∉ s.toList.map key) :
  (s.insert order x).toList.Perm (x :: s.toList)
  := by
  rw [insert, dif_neg h]
  apply order.perm

/-- Inserting elements with new keys one after the other. -/
theorem foldl_insert_perm [DecidableEq κ] (order : HashOrder α) (s : HashTable key) (l : List α)
    (h : ((s.toList ++ l).map key).Nodup) :
  (l.foldl (insert order) s).toList.Perm (s.toList ++ l)
  := by
  induction l generalizing s with
  | nil => simp
  | cons x l ih =>
      have hmiddle : (s.toList ++ x :: l).Perm (x :: (s.toList ++ l)) := List.perm_middle
      have hcons := ((hmiddle.map key).nodup_iff.mp h)
      have hx : key x ∉ s.toList.map key := by
        rw [List.map_cons, List.nodup_cons, List.map_append, List.mem_append, not_or] at hcons
        apply hcons.1.1
      have hinsert := insert_perm order hx
      have hnodup : (((s.insert order x).toList ++ l).map key).Nodup := by
        rw [((hinsert.append_right l).map key).nodup_iff]
        apply hcons
      apply (ih _ hnodup).trans
      apply (hinsert.append_right l).trans hmiddle.symm

/-- Inserting elements with distinct keys into the empty table. -/
theorem foldl_insert_empty_perm [DecidableEq κ] (order : HashOrder α) {l : List α}
    (h : (l.map key).Nodup) :
  (l.foldl (insert order) (empty key)).toList.Perm l
  := foldl_insert_perm order (empty key) l h

end HashTable
