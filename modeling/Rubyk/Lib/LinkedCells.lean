/-
  `Lib.LinkedCells`: singly linked cells in a memory.

  A cell holds a value and the address of the next cell, or none.  `Cells m fin l` says
  that the cells of `l` are in the memory one after the other, and that the last one
  points to `fin`.  A list can be cut at any cell (`cells_append`), so linking a cell in
  behind another (`Cells.link`) and taking one out (`Cells.unlink`) only look at the
  place where they happen.

  Nothing here is about a particular program.
-/
import Mathlib.Data.List.Nodup
import Mathlib.Logic.Function.Basic
import Rubyk.Lib.Runs

set_option autoImplicit false

namespace Rubyk.Lib

/-- Address of a cell. -/
abbrev Addr := Nat

/-- A cell. -/
structure Cell (α : Type) where
  obj : α
  next : Option Addr
  deriving DecidableEq, Repr

/-- The live cells. -/
abbrev Memory (α : Type) := Addr → Option (Cell α)

/-- What can go wrong with pointers. -/
inductive CellFault where
  /-- the address is not the address of a live cell -/
  | dangling
  /-- the value of a cell is used that has none -/
  | null
  /-- a loop over cells was cut -/
  | unfinished
  deriving DecidableEq, Repr

variable {α : Type} {m m' : Memory α} {a b c : Addr} {x y z : α} {fin fin' : Option Addr}
  {l front back : List (Addr × α)}

/-- Read a cell. -/
def readCell (m : Memory α) (a : Addr) : Except CellFault (Cell α) :=
  match m a with
  | some cell => .ok cell
  | none => .error .dangling

/-- Write a cell. -/
def writeCell (m : Memory α) (a : Addr) (cell : Cell α) : Memory α :=
  Function.update m a (some cell)

/-- Free a cell. -/
def freeCell (m : Memory α) (a : Addr) : Memory α := Function.update m a none

/-- Write the pointer of a live cell. -/
def setNext (m : Memory α) (a : Addr) (next : Option Addr) : Except CellFault (Memory α) :=
  match m a with
  | some cell => .ok (writeCell m a { cell with next := next })
  | none => .error .dangling

/-- From cell to cell, until there is no next cell or the next one says stop: the address
of the last cell that was passed. -/
def walk (m : Memory α) (stop : α → Except CellFault Bool) : Nat → Addr → Except CellFault Addr
  | 0, _ => .error .unfinished
  | fuel + 1, a =>
      match readCell m a with
      | .error fault => .error fault
      | .ok cell =>
          match cell.next with
          | none => .ok a
          | some next =>
              match readCell m next with
              | .error fault => .error fault
              | .ok cell =>
                  match stop cell.obj with
                  | .error fault => .error fault
                  | .ok true => .ok a
                  | .ok false => walk m stop fuel next

/-! ## Cells in a row -/

/-- Where a pointer to the first cell of the list points. -/
def firstOf (l : List (Addr × α)) (fin : Option Addr) : Option Addr :=
  match l with
  | [] => fin
  | (b, _) :: _ => some b

/-- The cells are in the memory, each with a pointer to the next one. -/
def Cells (m : Memory α) (fin : Option Addr) : List (Addr × α) → Prop
  | [] => True
  | (b, y) :: rest => m b = some ⟨y, firstOf rest fin⟩ ∧ Cells m fin rest

/-- The addresses of the cells. -/
def addrs (l : List (Addr × α)) : List Addr := l.map Prod.fst

@[simp] theorem addrs_nil : addrs ([] : List (Addr × α)) = [] := rfl

@[simp] theorem addrs_cons : addrs ((a, x) :: l) = a :: addrs l := rfl

@[simp] theorem addrs_append : addrs (front ++ back) = addrs front ++ addrs back :=
  List.map_append

theorem firstOf_append (front back : List (Addr × α)) (fin : Option Addr) :
    firstOf (front ++ back) fin = firstOf front (firstOf back fin) := by
  cases front <;> rfl

/-- A row of cells can be cut anywhere. -/
theorem cells_append : Cells m fin (front ++ back) ↔
    Cells m (firstOf back fin) front ∧ Cells m fin back := by
  induction front with
  | nil => simp [Cells]
  | cons p rest ih =>
    obtain ⟨b, y⟩ := p
    rw [List.cons_append, Cells, Cells, ih, firstOf_append, and_assoc]

/-- Only the addresses of the cells matter. -/
theorem Cells.congr (h : Cells m fin l) (hm : ∀ b ∈ addrs l, m' b = m b) :
    Cells m' fin l := by
  induction l with
  | nil => trivial
  | cons p rest ih =>
    obtain ⟨b, y⟩ := p
    obtain ⟨hb, hrest⟩ := h
    refine ⟨(hm b List.mem_cons_self).trans hb, ih hrest fun c hc => ?_⟩
    exact hm c (List.mem_cons_of_mem b hc)

theorem Cells.write (h : Cells m fin l) (hb : b ∉ addrs l) (cell : Cell α) :
    Cells (writeCell m b cell) fin l :=
  h.congr fun _ hc => Function.update_of_ne (ne_of_mem_of_not_mem hc hb) _ _

theorem Cells.free (h : Cells m fin l) (hb : b ∉ addrs l) : Cells (freeCell m b) fin l :=
  h.congr fun _ hc => Function.update_of_ne (ne_of_mem_of_not_mem hc hb) _ _

theorem Cells.read (h : Cells m fin (front ++ (b, y) :: back)) :
    readCell m b = .ok ⟨y, firstOf back fin⟩ := by
  have hb := (cells_append.mp h).2.1
  simp [readCell, hb]

/-- Rows that start with the same cell and end nowhere are the same. -/
theorem Cells.unique {l' : List (Addr × α)} (h : Cells m none l) (h' : Cells m none l')
    (hfirst : firstOf l none = firstOf l' none) : l = l' := by
  induction l generalizing l' with
  | nil =>
    cases l' with
    | nil => rfl
    | cons p rest => simp [firstOf] at hfirst
  | cons p rest ih =>
    obtain ⟨b, y⟩ := p
    cases l' with
    | nil => simp [firstOf] at hfirst
    | cons p' rest' =>
      obtain ⟨b', y'⟩ := p'
      obtain rfl : b = b' := by simpa [firstOf] using hfirst
      have hcell := h.1.symm.trans h'.1
      simp only [Option.some.injEq, Cell.mk.injEq] at hcell
      rw [hcell.1, ih h.2 h'.2 hcell.2]

/-- No cell is twice in a row that ends. -/
theorem Cells.nodup (h : Cells m none l) : (addrs l).Nodup := by
  induction l with
  | nil => exact List.nodup_nil
  | cons p rest ih =>
    obtain ⟨b, y⟩ := p
    refine List.nodup_cons.mpr ⟨fun hmem => ?_, ih h.2⟩
    obtain ⟨⟨c, z⟩, hc, hcb⟩ := List.mem_map.mp hmem
    obtain rfl : c = b := hcb
    obtain ⟨front, back, rfl⟩ := List.append_of_mem hc
    have hagain : Cells m none ((c, z) :: back) := (cells_append.mp h.2).2
    have heq := congrArg List.length (h.unique hagain rfl)
    simp at heq
    omega

/-- The last cell of a row is made to point somewhere else. -/
theorem Cells.relink (h : Cells m fin (front ++ [(b, y)])) (hb : b ∉ addrs front) :
    Cells (writeCell m b ⟨y, fin'⟩) fin' (front ++ [(b, y)]) := by
  obtain ⟨hfront, -⟩ := cells_append.mp h
  exact cells_append.mpr
    ⟨hfront.write hb _, by simp [Cells, writeCell, firstOf]⟩

/-- A cell is linked in behind another one. -/
theorem Cells.link (h : Cells m fin (front ++ (b, y) :: back))
    (hnodup : (addrs (front ++ (b, y) :: back)).Nodup)
    (hc : c ∉ addrs (front ++ (b, y) :: back)) :
    Cells (writeCell (writeCell m c ⟨z, firstOf back fin⟩) b ⟨y, some c⟩) fin
      (front ++ (b, y) :: (c, z) :: back) := by
  have hsplit : front ++ (b, y) :: (c, z) :: back = (front ++ [(b, y)]) ++ (c, z) :: back := by
    simp
  have hsplit' : front ++ (b, y) :: back = (front ++ [(b, y)]) ++ back := by simp
  rw [hsplit'] at h hnodup hc
  obtain ⟨hbefore, hafter⟩ := cells_append.mp h
  simp only [addrs_append, addrs_cons, List.mem_append, not_or, List.mem_cons] at hc hnodup
  obtain ⟨⟨hcfront, hcb, -⟩, hcback⟩ := hc
  obtain ⟨hfront, hback, hdisjoint⟩ := List.nodup_append.mp hnodup
  have hbfront : b ∉ addrs front := fun hmem => by
    have hne := (List.nodup_append.mp hfront).2.2 b hmem b (by simp)
    exact hne rfl
  have hbback : b ∉ addrs back := fun hmem => hdisjoint b (by simp) b hmem rfl
  have hcbefore : c ∉ addrs (front ++ [(b, y)]) := by simp [hcfront, hcb]
  rw [hsplit]
  refine cells_append.mpr ⟨(hbefore.write hcbefore _).relink hbfront, ?_, ?_⟩
  · simp [writeCell, Function.update_of_ne hcb]
  · exact (hafter.write hcback _).write hbback _

/-- A cell is taken out behind another one. -/
theorem Cells.unlink (h : Cells m fin (front ++ (b, y) :: (c, z) :: back))
    (hnodup : (addrs (front ++ (b, y) :: (c, z) :: back)).Nodup) :
    Cells (writeCell (freeCell m c) b ⟨y, firstOf back fin⟩) fin (front ++ (b, y) :: back) := by
  have hsplit : front ++ (b, y) :: (c, z) :: back = (front ++ [(b, y)]) ++ (c, z) :: back := by
    simp
  have hsplit' : front ++ (b, y) :: back = (front ++ [(b, y)]) ++ back := by simp
  rw [hsplit] at h hnodup
  obtain ⟨hbefore, -, hafter⟩ := cells_append.mp h
  simp only [addrs_append, addrs_cons] at hnodup
  obtain ⟨hfront, hback, hdisjoint⟩ := List.nodup_append.mp hnodup
  obtain ⟨hcback, -⟩ := List.nodup_cons.mp hback
  have hbfront : b ∉ addrs front := fun hmem => by
    have hne := (List.nodup_append.mp hfront).2.2 b hmem b (by simp)
    exact hne rfl
  have hcbefore : c ∉ addrs (front ++ [(b, y)]) := fun hmem => by
    simp only [addrs_append, addrs_cons] at hmem
    exact hdisjoint c hmem c List.mem_cons_self rfl
  have hbback : b ∉ addrs back := fun hmem =>
    hdisjoint b (by simp) b (List.mem_cons_of_mem c hmem) rfl
  rw [hsplit']
  exact cells_append.mpr
    ⟨(hbefore.free hcbefore).relink hbfront, (hafter.free hcback).write hbback _⟩

/-- The walk passes the cells that do not say stop. -/
theorem walk_eq (stop : α → Except CellFault Bool) {skipped rest : List (Addr × α)}
    (h : Cells m none (front ++ (b, y) :: (skipped ++ rest)))
    (hskipped : ∀ p ∈ skipped, stop p.2 = .ok false)
    (hrest : ∀ p ∈ rest.head?, stop p.2 = .ok true) {fuel : Nat}
    (hfuel : skipped.length < fuel) :
    ∃ front' b' y', front ++ (b, y) :: skipped = front' ++ [(b', y')] ∧
      walk m stop fuel b = .ok b' := by
  induction skipped generalizing front b y fuel with
  | nil =>
    obtain ⟨fuel, rfl⟩ : ∃ n, fuel = n + 1 := ⟨fuel - 1, by simp at hfuel; omega⟩
    refine ⟨front, b, y, rfl, ?_⟩
    rw [List.nil_append] at h
    cases rest with
    | nil => simp only [walk, h.read, firstOf]
    | cons p rest =>
      obtain ⟨c, z⟩ := p
      have hsplit : front ++ (b, y) :: (c, z) :: rest = (front ++ [(b, y)]) ++ (c, z) :: rest := by
        simp
      have hstop : stop z = .ok true := hrest (c, z) rfl
      have hnext := (hsplit ▸ h).read
      simp only [walk, h.read, firstOf, hnext, hstop]
  | cons p skipped ih =>
    obtain ⟨c, z⟩ := p
    obtain ⟨fuel, rfl⟩ : ∃ n, fuel = n + 1 := ⟨fuel - 1, by simp at hfuel; omega⟩
    have hsplit : front ++ (b, y) :: ((c, z) :: skipped ++ rest) =
        (front ++ [(b, y)]) ++ (c, z) :: (skipped ++ rest) := by simp
    have hgo : stop z = .ok false := hskipped (c, z) List.mem_cons_self
    have hskip : ∀ q ∈ skipped, stop q.2 = .ok false :=
      fun q hq => hskipped q (List.mem_cons_of_mem _ hq)
    have hless : skipped.length < fuel := by simpa using hfuel
    obtain ⟨front', b', y', heq, hwalk⟩ := ih (hsplit ▸ h) hskip hless
    refine ⟨front', b', y', by rw [← heq]; simp, ?_⟩
    have hnext := (hsplit ▸ h).read
    have hread := h.read
    simp only [List.cons_append, firstOf] at hread
    simp only [walk, hread, hnext, hgo, hwalk]

end Rubyk.Lib
