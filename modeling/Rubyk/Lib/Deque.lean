/-
  `Lib.Deque`: a double-ended queue whose iterators are positions.

  An iterator is the place of an element in memory, and it stays that when elements come
  and go.  An element that is erased is made up for from the shorter side: the elements
  before it move up, and the queue begins one place later, or those behind it move down.

  The documentation promises less than that.  To push an element invalidates all
  iterators, and so does to erase one, unless it is the first or the last.  Where the
  promise holds, an iterator points to what it pointed to before (`get?_eraseAt`).

  Nothing here is about a particular program.
-/
import Mathlib.Data.List.Infix

set_option autoImplicit false

namespace Rubyk.Lib

/-- The elements, and the place of the first one. -/
structure Deque (α : Type) where
  first : Nat
  items : List α
  deriving DecidableEq, Repr

namespace Deque

variable {α : Type} {d : Deque α} {i p : Nat} {x : α}

/-- The end iterator. -/
def stop (d : Deque α) : Nat := d.first + d.items.length

/-- What an iterator points to. -/
def get? (d : Deque α) (p : Nat) : Option α :=
  if d.first ≤ p then d.items[p - d.first]? else none

def pushBack (d : Deque α) (x : α) : Deque α := { d with items := d.items ++ [x] }

/-- Erase the element at an index. -/
def eraseAt (d : Deque α) (i : Nat) : Deque α where
  first := if i < d.items.length / 2 then d.first + 1 else d.first
  items := d.items.eraseIdx i

/-- Erase the first occurrence. -/
def erase [DecidableEq α] (d : Deque α) (x : α) : Deque α :=
  match d.items.idxOf? x with
  | some i => d.eraseAt i
  | none => d

/-- The iterator is still valid when the element at the index has been erased. -/
def Keeps (d : Deque α) (i p : Nat) : Prop :=
  i = 0 ∧ 1 < d.items.length ∧ p ≠ d.first ∨
    0 < i ∧ i + 1 = d.items.length ∧ p ≠ d.first + i ∧ p ≠ d.stop

instance (d : Deque α) (i p : Nat) : Decidable (d.Keeps i p) :=
  inferInstanceAs (Decidable (_ ∨ _))

@[simp] theorem items_pushBack (d : Deque α) (x : α) :
    (d.pushBack x).items = d.items ++ [x] := rfl

@[simp] theorem items_erase [DecidableEq α] (d : Deque α) (x : α) :
    (d.erase x).items = d.items.erase x := by
  rw [List.erase_eq_eraseIdx, erase]
  split <;> rename_i h <;> rw [h]
  rfl

theorem erase_of_not_mem [DecidableEq α] (h : x ∉ d.items) : d.erase x = d := by
  rw [erase, List.idxOf?_eq_none_iff.mpr h]

theorem erase_of_idxOf? [DecidableEq α] (h : d.items.idxOf? x = some i) :
    d.erase x = d.eraseAt i := by
  rw [erase, h]

theorem get?_of_le (h : d.first ≤ p) : d.get? p = d.items[p - d.first]? := if_pos h

theorem mem_of_get? (h : d.get? p = some x) : x ∈ d.items := by
  unfold get? at h
  split at h
  · exact List.mem_of_getElem? h
  · cases h

/-- The first one of several is erased: the queue begins one place later, and ends where it
did. -/
theorem eraseAt_zero (h : 1 < d.items.length) :
    d.eraseAt 0 = ⟨d.first + 1, d.items.tail⟩ ∧ (d.eraseAt 0).stop = d.stop := by
  have hfirst : d.eraseAt 0 = ⟨d.first + 1, d.items.tail⟩ := by
    rw [eraseAt, if_pos (by omega), List.eraseIdx_zero]
  have hlength : d.first + 1 + (d.items.length - 1) = d.first + d.items.length := by omega
  refine ⟨hfirst, ?_⟩
  rw [hfirst]
  simpa [stop] using hlength

/-- The last one of several is erased. -/
theorem eraseAt_last (hpos : 0 < i) (h : i + 1 = d.items.length) :
    d.eraseAt i = ⟨d.first, d.items.dropLast⟩ := by
  rw [eraseAt, if_neg (by omega), List.eraseIdx_eq_dropLast h]

/-- Where an iterator is promised to stay valid, it points to the same element. -/
theorem get?_eraseAt (hkeeps : d.Keeps i p) (hle : d.first ≤ p) (hstop : p ≤ d.stop) :
    (d.eraseAt i).first ≤ p ∧ (d.eraseAt i).get? p = d.get? p := by
  rw [get?_of_le hle]
  rcases hkeeps with ⟨rfl, hmany, hne⟩ | ⟨hpos, hlast, hne, hne'⟩
  · have hlt : d.first + 1 ≤ p := by omega
    have hindex : p - (d.first + 1) + 1 = p - d.first := by omega
    rw [(eraseAt_zero hmany).1, get?_of_le hlt, List.getElem?_tail, hindex]
    exact ⟨hlt, rfl⟩
  · have hlt : p - d.first < d.items.length - 1 := by
      rw [stop] at hstop hne'
      omega
    rw [eraseAt_last hpos hlast]
    refine ⟨hle, (get?_of_le (d := ⟨d.first, d.items.dropLast⟩) hle).trans ?_⟩
    rw [List.getElem?_dropLast, if_pos hlt]

end Deque

end Rubyk.Lib
