/-
  Core/TMatrix.lean --- `TMatrix` of `src/core/tmatrix.h` and `src/core/off/tmatrix.cpp`:
  its memory.

  WHAT IS MODELLED.  The data of a matrix is a list of cells in row-major order, as long
  as `mStorageSize`; it may be longer than the matrix.  New memory holds `default`,
  which can be any value, and there is always enough of it; a block that is made smaller, to
  no cells too, stays a block, as it does where the source is built (macOS).  Sizes are not
  bounded, and those that the source prints with `%i` fit an `int`.

  UNDEFINED.  An operation of this module gives `none` when it uses memory outside of the
  data, divides by zero or formats a text with an argument too few.

  `Describes` says what a matrix looks like from outside: its sizes and its cells.
-/
import Mathlib.Algebra.Ring.Int.Defs
import Mathlib.Algebra.Ring.Nat
import Rubyk.Lib.Cells

set_option autoImplicit false

namespace Rubyk

open Lib

/-- The fields of `TMatrix`. -/
structure TMatrix (α : Type) where
  data : List α
  mRowCount : Nat
  mColCount : Nat
  mErrorMsg : String
  deriving DecidableEq, Repr

/-- What `check_sizes` finds: the rows, from the first to the last. -/
inductive SizeCheck where
  | rows (first last : Nat)
  | error (text : String)
  /-- the text of a bad column count has an argument too few -/
  | undefined
  deriving DecidableEq, Repr

namespace TMatrix

section Memory

variable {α : Type}

/-- `set_error`. -/
def setError (m : TMatrix α) (text : String) : TMatrix α := { m with mErrorMsg := text }

/-- A row index: a negative one counts from the end. -/
def rowIndex (m : TMatrix α) (i : Int) : Int := if i < 0 then m.mRowCount + i else i

/-- `operator[]`: the first cell of a row of the matrix. -/
def rowAt (m : TMatrix α) (i : Int) : Option Nat :=
  if 0 ≤ i ∧ i < m.mRowCount then some (m.mColCount * i.toNat) else none

/-- `check_sizes`. -/
def checkSizes (m : TMatrix α) (msg : String) (other : TMatrix α) (startRow endRow : Int)
    (allowColCountChange : Bool) : SizeCheck :=
  let last := other.rowIndex endRow
  let first := other.rowIndex startRow
  let sizes := s!"{other.mRowCount}x{other.mColCount}"
  if ¬ (0 ≤ first ∧ first < other.mRowCount) then
    .error s!"size error ({msg}): bad start row {startRow} ({first}) of matrix {sizes}"
  else if ¬ (0 ≤ last ∧ last < other.mRowCount) then
    .error s!"size error ({msg}): bad end row {endRow} ({last}) of matrix {sizes}"
  else if other.mColCount ≠ m.mColCount ∧ allowColCountChange = false then .undefined
  else if other.mColCount = 0 then
    .error s!"size error ({msg}): source matrix {sizes} is empty."
  else .rows first.toNat last.toNat

/-- `fill`. -/
def fill (m : TMatrix α) (x : α) : Option (TMatrix α) := do
  let data ← (List.range (m.mRowCount * m.mColCount)).foldlM (fun data i => store data i x) m.data
  some { m with data := data }

/-- `clear`. -/
def clear [Zero α] (m : TMatrix α) : Option (TMatrix α) := m.fill 0

variable [Inhabited α]

/-- `reallocate`. -/
def reallocate (m : TMatrix α) (size : Nat) : TMatrix α :=
  { m with data := m.data.take size ++ List.replicate (size - m.data.length) default }

/-- `check_alloc`. -/
def checkAlloc (m : TMatrix α) (size : Nat) : TMatrix α :=
  if m.data.length = 0 then { m with data := List.replicate (max 16 size) default }
  else if m.data.length < size then m.reallocate size
  else m

/-- `set_sizes`. -/
def setSizes (m : TMatrix α) (rowCount colCount : Nat) : TMatrix α :=
  { m.reallocate (rowCount * colCount) with mRowCount := rowCount, mColCount := colCount }

/-- `raw_copy`. -/
def rawCopy (m : TMatrix α) (rowOffset : Nat) (vector : List α) (resize : Bool) :
    Option (Bool × TMatrix α) := do
  let currentSize := rowOffset * m.mColCount
  let m := m.checkAlloc (currentSize + vector.length)
  let m := if m.mColCount = 0 then { m with mColCount := vector.length, mRowCount := 1 } else m
  let data ← stores m.data currentSize vector
  if m.mColCount = 0 then none
  else
    let rowCount := rowOffset + vector.length / m.mColCount
    if m.mRowCount < rowCount ∨ resize = true then
      some (true, { m with data := data, mRowCount := rowCount })
    else some (true, { m with data := data })

/-- `copy_at`. -/
def copyAt (m : TMatrix α) (row : Int) (other : TMatrix α) (startRow endRow : Int)
    (resize : Bool) : Option (Bool × TMatrix α) :=
  match m.checkSizes "copy" other startRow endRow (row == 0) with
  | .undefined => none
  | .error text => some (false, m.setError text)
  | .rows first last =>
      if ¬ (0 ≤ m.rowIndex row ∧ m.rowIndex row ≤ m.mRowCount) then
        -- copy can start at most at the end of the current matrix
        some (false, m.setError
          s!"cannot start copying at {row} in matrix {m.mRowCount}x{m.mColCount}")
      else if last + 1 < first then none
      else do
        let vector ← loads other.data (first * other.mColCount)
          ((last + 1 - first) * other.mColCount)
        { m with mColCount := other.mColCount }.rawCopy (m.rowIndex row).toNat vector
          (resize && row == 0)

end Memory

/-! ## Descriptions -/

section Descriptions

variable {α : Type} {m : TMatrix α} {rows cols : Nat} {v : Nat → Nat → α}

/-- The sizes of a matrix, and what is in its cells. -/
structure Describes (m : TMatrix α) (rows cols : Nat) (v : Nat → Nat → α) : Prop where
  rowCount : m.mRowCount = rows
  colCount : m.mColCount = cols
  cell : ∀ i < rows, ∀ j < cols, m.data[i * cols + j]? = some (v i j)

/-- The cells are in the data. -/
theorem Describes.size_le (h : m.Describes rows cols v) : rows * cols ≤ m.data.length := by
  rcases Nat.eq_zero_or_pos (rows * cols) with hzero | hpos
  · omega
  · have hrows : 0 < rows := Nat.pos_of_mul_pos_right hpos
    have hcols : 0 < cols := Nat.pos_of_mul_pos_left hpos
    have hlast := h.cell (rows - 1) (by omega) (cols - 1) (by omega)
    obtain ⟨hlt, -⟩ := List.getElem?_eq_some_iff.mp hlast
    have hsucc : rows * cols = (rows - 1) * cols + cols := by
      rw [← Nat.succ_mul, Nat.succ_eq_add_one, Nat.sub_add_cancel hrows]
    omega

/-- The end of a row is in the matrix. -/
theorem row_end_le {i : Nat} (hi : i < rows) : i * cols + cols ≤ rows * cols := by
  rw [← Nat.succ_mul]
  exact Nat.mul_le_mul_right cols hi

theorem Describes.rowAt_eq (h : m.Describes rows cols v) {i : Nat} (hi : i < rows) :
    m.rowAt i = some (cols * i) := by
  have hin : 0 ≤ (i : Int) ∧ (i : Int) < m.mRowCount := by
    rw [h.rowCount]
    omega
  rw [rowAt, if_pos hin, h.colCount, Int.toNat_natCast]

/-- Reading a row. -/
theorem Describes.loads_row (h : m.Describes rows cols v) {i : Nat} (hi : i < rows) :
    ∃ xs, loads m.data (i * cols) cols = some xs ∧ xs.length = cols ∧
      ∀ j < cols, xs[j]? = some (v i j) := by
  obtain ⟨xs, hxs, hlen, hcells⟩ := loads_spec (Nat.le_trans (row_end_le hi) h.size_le)
  exact ⟨xs, hxs, hlen, fun j hj => by rw [hcells j hj, h.cell i hi j hj]⟩

/-- Writing a row. -/
theorem Describes.stores_row (h : m.Describes rows cols v) {i : Nat} (hi : i < rows)
    {xs : List α} {x : Nat → α} (hlen : xs.length = cols) (hx : ∀ j < cols, xs[j]? = some (x j)) :
    ∃ data, stores m.data (i * cols) xs = some data ∧
      { m with data := data }.Describes rows cols fun k j => if k = i then x j else v k j := by
  have hfits : i * cols + xs.length ≤ m.data.length := by
    rw [hlen]
    exact Nat.le_trans (row_end_le hi) h.size_le
  obtain ⟨data, hdata, -, hcells⟩ := stores_spec hfits
  refine ⟨data, hdata, h.rowCount, h.colCount, fun k hk j hj => ?_⟩
  rw [hcells, hlen]
  by_cases heq : k = i
  · subst heq
    rw [if_pos ⟨by omega, by omega⟩, if_pos rfl, Nat.add_sub_cancel_left, hx j hj]
  · have hout : ¬ (i * cols ≤ k * cols + j ∧ k * cols + j < i * cols + cols) := by
      rintro ⟨hle, hlt⟩
      refine heq ((rowMajor_inj hj (l := k * cols + j - i * cols) (by omega)).mp ?_).1
      omega
    rw [if_neg hout, if_neg heq, h.cell k hk j hj]

variable [Inhabited α]

theorem checkAlloc_of_le {size : Nat} (hpos : 0 < m.data.length) (hle : size ≤ m.data.length) :
    m.checkAlloc size = m := by
  rw [checkAlloc, if_neg (by omega), if_neg (by omega)]

/-- The memory of a matrix is enough for what is asked for. -/
theorem le_length_checkAlloc (m : TMatrix α) (size : Nat) :
    size ≤ (m.checkAlloc size).data.length ∧ (m.checkAlloc size).mColCount = m.mColCount := by
  unfold checkAlloc
  split
  · exact ⟨by rw [List.length_replicate]; omega, rfl⟩
  · split
    · refine ⟨?_, rfl⟩
      simp only [reallocate, List.length_append, List.length_take, List.length_replicate]
      omega
    · next hle => exact ⟨Nat.le_of_not_lt hle, rfl⟩

/-- A matrix with columns takes any vector. -/
theorem exists_rawCopy (hcols : m.mColCount ≠ 0) (i : Nat) (xs : List α) :
    ∃ m', m.rawCopy i xs false = some (true, m') ∧ m'.mColCount = m.mColCount := by
  obtain ⟨hroom, hkept⟩ := le_length_checkAlloc m (i * m.mColCount + xs.length)
  obtain ⟨data, hstores, -, -⟩ := stores_spec hroom
  have hzero : ¬ (m.checkAlloc (i * m.mColCount + xs.length)).mColCount = 0 := by rwa [hkept]
  simp only [rawCopy, if_neg hzero, hstores, Option.bind_eq_bind, Option.bind_some]
  split
  · exact ⟨_, rfl, hkept⟩
  · exact ⟨_, rfl, hkept⟩

/-- A vector copied to a row that there is. -/
theorem Describes.rawCopy_row (h : m.Describes rows cols v) (hcols : 0 < cols) {i : Nat}
    (hi : i < rows) {xs : List α} {x : Nat → α} (hlen : xs.length = cols)
    (hx : ∀ j < cols, xs[j]? = some (x j)) :
    ∃ m', m.rawCopy i xs false = some (true, m') ∧
      m'.Describes rows cols fun k j => if k = i then x j else v k j := by
  obtain ⟨data, hdata, hdescribes⟩ := h.stores_row hi hlen hx
  refine ⟨{ m with data := data }, ?_, hdescribes⟩
  have hend := Nat.le_trans (row_end_le hi) h.size_le
  have halloc : m.checkAlloc (i * m.mColCount + xs.length) = m := by
    rw [h.colCount, hlen]
    exact checkAlloc_of_le (by omega) hend
  have hcolumns : m.mColCount ≠ 0 := by
    rw [h.colCount]
    omega
  have hkept : ¬ (m.mRowCount < i + xs.length / m.mColCount ∨ false = true) := by
    rw [h.rowCount, h.colCount, hlen, Nat.div_self hcols]
    simp
    omega
  simp only [rawCopy, halloc, if_neg hcolumns]
  rw [h.colCount, hdata]
  simp only [Option.bind_eq_bind, Option.bind_some]
  rw [← h.colCount, if_neg hkept]

/-- A row copied to a row of the same matrix, as `copy_at` does it. -/
theorem Describes.copyAt_row (h : m.Describes rows cols v) (hcols : 0 < cols) {k l : Nat}
    (hk : k < rows) (hl : l < rows) :
    ∃ m', m.copyAt l m k k false = some (true, m') ∧
      m'.Describes rows cols fun i j => if i = l then v k j else v i j := by
  have hindex : ∀ i : Nat, m.rowIndex i = i := fun i => if_neg (by omega)
  have hsizes : m.checkSizes "copy" m k k ((l : Int) == 0) = .rows k k := by
    have hin : 0 ≤ (k : Int) ∧ (k : Int) < m.mRowCount := by
      rw [h.rowCount]
      omega
    have hcolumns : m.mColCount ≠ 0 := by
      rw [h.colCount]
      omega
    simp [checkSizes, hindex, hin, hcolumns]
  have hin : 0 ≤ (l : Int) ∧ (l : Int) ≤ m.mRowCount := by
    rw [h.rowCount]
    omega
  obtain ⟨xs, hxs, hlen, hcells⟩ := h.loads_row hk
  obtain ⟨m', hcopy, hdescribes⟩ := h.rawCopy_row hcols hl hlen hcells
  refine ⟨m', ?_, hdescribes⟩
  have hone : k + 1 - k = 1 := by omega
  simp only [copyAt, hsizes, hindex]
  rw [if_neg (not_not.mpr hin), if_neg (by omega), hone, Nat.one_mul, h.colCount, hxs]
  simp only [Option.bind_eq_bind, Option.bind_some, Int.toNat_natCast, Bool.false_and]
  rw [← h.colCount]
  exact hcopy

/-- New sizes, and all cells cleared. -/
theorem clear_setSizes_describes [Zero α] (m : TMatrix α) (rows cols : Nat) :
    ∃ m', (m.setSizes rows cols).clear = some m' ∧ m'.Describes rows cols fun _ _ => 0 := by
  have hlen : (m.setSizes rows cols).data.length = rows * cols := by
    simp only [setSizes, reallocate, List.length_append, List.length_take,
      List.length_replicate]
    omega
  have hloop : ∃ data : List α,
      (List.range (rows * cols)).foldlM (fun data i => store data i (0 : α))
        (m.setSizes rows cols).data = some data ∧ data.length = rows * cols ∧
      ∀ l < rows * cols, data[l]? = some 0 := by
    refine foldlM_range
      (fun k (data : List α) => data.length = rows * cols ∧ ∀ l < k, data[l]? = some 0)
      ⟨hlen, nofun⟩ fun k hk data hdata => ?_
    obtain ⟨data', hstore, hlen', hcell⟩ := store_spec (hdata.1 ▸ hk) (0 : α)
    refine ⟨data', hstore, hlen'.trans hdata.1, fun l hl => ?_⟩
    rw [hcell]
    split
    · rfl
    · exact hdata.2 l (by omega)
  obtain ⟨data, hdata, -, hcells⟩ := hloop
  refine ⟨{ m.setSizes rows cols with data := data }, ?_, rfl, rfl, fun i hi j hj => ?_⟩
  · simp only [clear, fill]
    change ((List.range (rows * cols)).foldlM (fun data i => store data i 0) _ >>= _) = _
    rw [hdata]
    rfl
  · exact hcells _ (rowMajor_lt hi hj)

end Descriptions

end TMatrix

end Rubyk
