/-
  `Lib.Rows`: tables with rows of any width.

  A table is a list of rows.  `Describes table n width value` says that it has `n` rows,
  that row `i` has `width i` cells, and what is in them; each operation has one rule
  that says how the description changes.  Reading or writing outside of the table is
  not defined.

  Nothing here is about a particular program.
-/
import Mathlib.Data.List.Basic

set_option autoImplicit false

namespace Rubyk.Lib

/-- A table. -/
abbrev Rows (β : Type) := List (List β)

variable {β : Type} {table table' : Rows β} {i j k l n : Nat} {x y : β}

namespace Rows

/-- The cell in row `i` and column `j`. -/
def cell? (table : Rows β) (i j : Nat) : Option β := table[i]?.bind (·[j]?)

/-- The cell at signed indices. -/
def read (table : Rows β) (i j : Int) : Option β :=
  if 0 ≤ i ∧ 0 ≤ j then table.cell? i.toNat j.toNat else none

/-- Write a cell. -/
def write (table : Rows β) (i j : Nat) (x : β) : Option (Rows β) :=
  if (table.cell? i j).isSome then some (table.modify i (·.set j x)) else none

/-- One more cell at the end of every row. -/
def addColumn (table : Rows β) (f : Nat → β) : Rows β :=
  table.mapIdx fun i row => row ++ [f i]

/-- One more row. -/
def addRow (table : Rows β) (row : List β) : Rows β := table ++ [row]

@[simp] theorem read_natCast (table : Rows β) (i j : Nat) : table.read i j = table.cell? i j := by
  simp [read]

/-! ## Descriptions -/

/-- The number of rows, their widths and what is in the cells. -/
structure Describes (table : Rows β) (n : Nat) (width : Nat → Nat) (value : Nat → Nat → β) :
    Prop where
  length : table.length = n
  cell : ∀ i j, i < n → table.cell? i j = if j < width i then some (value i j) else none

variable {width width' : Nat → Nat} {value value' : Nat → Nat → β}

/-- Only the cells that there are matter. -/
theorem Describes.congr (h : table.Describes n width value) (hwidth : ∀ i < n, width i = width' i)
    (hvalue : ∀ i j, i < n → j < width' i → value i j = value' i j) :
    table.Describes n width' value' where
  length := h.length
  cell := fun i j hi => by
    rw [h.cell i j hi, hwidth i hi]
    by_cases hj : j < width' i
    · rw [if_pos hj, if_pos hj, hvalue i j hi hj]
    · rw [if_neg hj, if_neg hj]

theorem Describes.cell_eq (h : table.Describes n width value) (hi : i < n) (hj : j < width i) :
    table.cell? i j = some (value i j) := by
  rw [h.cell i j hi, if_pos hj]

/-- A table of one row. -/
theorem describes_singleton (row : List β) (d : β) :
    Describes [row] 1 (fun _ => row.length) fun _ j => row[j]?.getD d where
  length := rfl
  cell := fun i j hi => by
    obtain rfl : i = 0 := by omega
    by_cases hj : j < row.length
    · simp [cell?, hj]
    · simp [cell?, hj]

theorem Describes.addColumn (h : table.Describes n width value) (f : Nat → β) :
    (table.addColumn f).Describes n (fun i => width i + 1)
      fun i j => if j = width i then f i else value i j where
  length := by simp [Rows.addColumn, h.length]
  cell := fun i j hi => by
    have hlt : i < table.length := h.length ▸ hi
    have hwidth : table[i].length = width i := by
      by_contra hne
      rcases Nat.lt_or_gt_of_ne hne with hless | hmore
      · have hcell := h.cell i table[i].length hi
        simp [cell?, hlt, hless] at hcell
      · have hcell := h.cell i (width i) hi
        simp [cell?, hlt, hmore] at hcell
    have hcell := h.cell i j hi
    simp only [cell?, List.getElem?_eq_getElem hlt, Option.bind_some] at hcell
    have hnew : (table.addColumn f)[i]? = some (table[i] ++ [f i]) := by
      simp [Rows.addColumn, hlt]
    rw [cell?, hnew, Option.bind_some]
    rcases Nat.lt_trichotomy j (width i) with hj | rfl | hj
    · rw [List.getElem?_append_left (by omega), hcell]
      simp [hj, Nat.ne_of_lt hj, Nat.lt_succ_of_lt hj]
    · rw [List.getElem?_append_right (by omega)]
      simp [hwidth]
    · rw [List.getElem?_append_right (by omega), List.getElem?_eq_none (by simp; omega)]
      simp
      omega

theorem Describes.addRow (h : table.Describes n width value) (row : List β) (d : β) :
    (table.addRow row).Describes (n + 1) (fun i => if i = n then row.length else width i)
      fun i j => if i = n then row[j]?.getD d else value i j where
  length := by simp [Rows.addRow, h.length]
  cell := fun i j hi => by
    rcases Nat.lt_succ_iff_lt_or_eq.mp hi with hlt | rfl
    · have hold := h.cell i j hlt
      have hget : (table.addRow row)[i]? = table[i]? :=
        List.getElem?_append_left (h.length ▸ hlt)
      rw [cell?, hget]
      simpa [cell?, Nat.ne_of_lt hlt] using hold
    · have hget : (table.addRow row)[i]? = some row := by
        simp [Rows.addRow, ← h.length]
      rw [cell?, hget]
      by_cases hj : j < row.length
      · simp [hj]
      · simp [hj]

theorem Describes.write (h : table.Describes n width value) (hi : i < n) (hj : j < width i)
    (x : β) :
    ∃ table', table.write i j x = some table' ∧
      table'.Describes n width fun k l => if k = i ∧ l = j then x else value k l := by
  have hcell := h.cell_eq hi hj
  refine ⟨table.modify i (·.set j x), by simp [Rows.write, hcell], by simp [h.length], ?_⟩
  intro k l hk
  have hlt : k < table.length := h.length ▸ hk
  have hold := h.cell k l hk
  simp only [cell?, List.getElem?_eq_getElem hlt, Option.bind_some] at hold
  by_cases hki : k = i
  · subst hki
    simp only [cell?]
    by_cases hlj : l = j
    · subst hlj
      have hlen : l < table[k].length := by
        by_contra hno
        rw [List.getElem?_eq_none (by omega), if_pos hj] at hold
        cases hold
      simp [List.getElem?_eq_getElem hlt, hlen, hj]
    · simp [List.getElem?_eq_getElem hlt, hold, hlj, Ne.symm hlj]
  · simp [cell?, Ne.symm hki, List.getElem?_eq_getElem hlt, hold, hki]

end Rows

end Rubyk.Lib
