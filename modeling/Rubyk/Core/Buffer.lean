/-
  Core/Buffer.lean --- `Buffer` of `src/core/off/buffer.cpp`: a window on the last
  vectors of a stream.

  A buffer has five times the rows of its window.  `advance` moves the row to write to,
  and the window with it; on the last rows it copies each row to the front before it
  leaves it, so that the window can start again there.

  The window is a view: it has no cells of its own, but the position of its first cell
  in the data of the buffer.  `row` and `matrix` read through it.  What is written to a
  returned row is written to the data of the buffer.

  `Slides` is the invariant: which vector is in which row, in every phase.

  SIZES are exact.  `copy_at` takes its rows as `int`, which makes no difference for a
  buffer of fewer than 2^31 rows (`copyHead_sized`).
-/
import Rubyk.Core.TMatrixSizes

set_option autoImplicit false

namespace Rubyk

open Lib

/-- `CutMatrix`: the first cell of the view in the other matrix's data, and the sizes. -/
structure CutMatrix where
  data : Option Nat
  mRowCount : Nat
  mColCount : Nat
  deriving DecidableEq, Repr

/-- `Buffer`. -/
structure Buffer (α : Type) where
  mBuffer : TMatrix α
  mWindow : CutMatrix
  mWindowSize : Nat
  mWriteRow : Nat
  deriving DecidableEq, Repr

/-- `DEFAULT_WINDOW_COUNT`. -/
def windowCount : Nat := 5

namespace Buffer

variable {α : Type} [Inhabited α]

/-- `set_sizes`. -/
def setSizes [Zero α] (b : Buffer α) (rowCount colCount : Nat) : Option (Buffer α) := do
  let mBuffer ← (b.mBuffer.setSizes (rowCount * windowCount) colCount).clear
  some
    { mBuffer := mBuffer
      mWindow := { b.mWindow with mRowCount := rowCount, mColCount := mBuffer.mColCount }
      mWindowSize := rowCount
      mWriteRow := rowCount }

/-- The copy that `advance` makes on the last rows: a vector for the loop head. -/
def copyHead (b : Buffer α) : Option (Bool × TMatrix α) :=
  if b.mWindowSize * (windowCount - 1) + 1 ≤ b.mWriteRow then
    b.mBuffer.copyAt (b.mWriteRow - b.mWindowSize * (windowCount - 1) - 1 : Nat) b.mBuffer
      b.mWriteRow b.mWriteRow false
  else some (true, b.mBuffer)

/-- `advance`: the first cell of the row to write the next vector to. -/
def advance (b : Buffer α) : Option (Option Nat × Buffer α) :=
  if b.mWindowSize = 0 then some (none, b)
  else do
    let (copied, mBuffer) ← b.copyHead
    if copied = false then some (none, { b with mBuffer := mBuffer })
    else
      let writeRow := b.mWriteRow + 1
      let window ← mBuffer.rowAt (writeRow - b.mWindowSize)
      let writeRow := if b.mWindowSize * windowCount ≤ writeRow then b.mWindowSize - 1 else writeRow
      let row ← mBuffer.rowAt writeRow
      some (some row, { b with
        mBuffer := mBuffer
        mWindow := { b.mWindow with data := some window }
        mWriteRow := writeRow })

/-- Write a vector from a cell on. -/
def write (b : Buffer α) (cell : Nat) (vector : List α) : Option (Buffer α) := do
  let data ← stores b.mBuffer.data cell vector
  some { b with mBuffer := { b.mBuffer with data := data } }

/-- `matrix`: the rows of the window. -/
def matrix (b : Buffer α) : Option (List (List α)) := do
  let first ← b.mWindow.data
  (List.range b.mWindow.mRowCount).mapM fun i =>
    loads b.mBuffer.data (first + i * b.mWindow.mColCount) b.mWindow.mColCount

/-- Rounds of `advance` and writing: the vector of round `k` is `vectors k`, from 1 on. -/
def rounds (b : Buffer α) (vectors : Nat → List α) : Nat → Option (Buffer α)
  | 0 => some b
  | n + 1 => do
      let b ← rounds b vectors n
      let (row, b) ← b.advance
      let row ← row
      b.write row (vectors (n + 1))

/-! ## The invariant -/

section Slides

variable {b : Buffer α} {W C n : Nat} {w : Int → Nat → α}

/-- After `n` vectors, of which `w k` is number `k`: the window's rows up to the row of the last
vector, and the copies that were made of the last rows. -/
structure Slides (b : Buffer α) (W C : Nat) (w : Int → Nat → α) (n : Nat) : Prop where
  windowSize : b.mWindowSize = W
  windowRows : b.mWindow.mRowCount = W
  windowCols : b.mWindow.mColCount = C
  low : W ≤ b.mWriteRow + 1
  high : b.mWriteRow < 5 * W
  rows : ∃ v, b.mBuffer.Describes (5 * W) C v ∧
    (∀ d < W, ∀ j < C, v (b.mWriteRow - d) j = w (n - d) j) ∧
    ∀ i, 4 * W + 1 ≤ i → i < b.mWriteRow → ∀ j < C,
      v (i - (4 * W + 1)) j = w (n - (b.mWriteRow - i : Nat)) j

/-- A new buffer, written to from any row on that leaves room for the window: all vectors
are 0. -/
theorem setSizes_slides_from [Zero α] (b : Buffer α) (hw : ∀ k ≤ 0, ∀ j, w k j = 0) {r : Nat}
    (hlow : W ≤ r + 1) (hhigh : r < 5 * W) :
    ∃ b', b.setSizes W C = some b' ∧ b'.mWindowSize = W ∧ b'.mWriteRow = W ∧
      b'.mWindow.data = b.mWindow.data ∧ { b' with mWriteRow := r }.Slides W C w 0 := by
  obtain ⟨m, hclear, hdescribes⟩ :=
    TMatrix.clear_setSizes_describes b.mBuffer (W * windowCount) C
  have hsizes : b.setSizes W C = some ⟨m, ⟨b.mWindow.data, W, m.mColCount⟩, W, W⟩ := by
    rw [setSizes, hclear]
    rfl
  refine ⟨_, hsizes, rfl, rfl, rfl, rfl, rfl, hdescribes.colCount, hlow, hhigh, ?_⟩
  rw [Nat.mul_comm] at hdescribes
  refine ⟨_, hdescribes, fun d _ j _ => (hw _ (by omega) j).symm, fun i _ _ j _ => ?_⟩
  exact (hw _ (by omega) j).symm

/-- A new buffer. -/
theorem setSizes_slides [Zero α] (b : Buffer α) (hW : 1 ≤ W) (hw : ∀ k ≤ 0, ∀ j, w k j = 0) :
    ∃ b', b.setSizes W C = some b' ∧ b'.Slides W C w 0 := by
  obtain ⟨⟨m, window, size, row⟩, hsizes, -, hrow, -, hslides⟩ :=
    b.setSizes_slides_from (C := C) hw (r := W) (Nat.le_succ W) (by omega)
  obtain rfl : row = W := hrow
  exact ⟨_, hsizes, hslides⟩

/-- The copy on the last rows. -/
theorem Slides.copyHead_eq (h : b.Slides W C w n) (hC : 1 ≤ C) :
    ∃ m v, b.copyHead = some (true, m) ∧ m.Describes (5 * W) C v ∧
      (∀ d < W, ∀ j < C, v (b.mWriteRow - d) j = w (n - d) j) ∧
      ∀ i, 4 * W + 1 ≤ i → i ≤ b.mWriteRow → ∀ j < C,
        v (i - (4 * W + 1)) j = w (n - (b.mWriteRow - i : Nat)) j := by
  obtain ⟨v, hv, hlast, hcopied⟩ := h.rows
  have hlow := h.low
  have hhigh := h.high
  by_cases hcopy : 4 * W + 1 ≤ b.mWriteRow
  · obtain ⟨m, hm, hdescribes⟩ := hv.copyAt_row hC (k := b.mWriteRow)
      (l := b.mWriteRow - (4 * W + 1)) (by omega) (by omega)
    refine ⟨m, _, ?_, hdescribes, fun d hd j hj => ?_, fun i hi hle j hj => ?_⟩
    · have hrow : b.mWriteRow - b.mWindowSize * (windowCount - 1) - 1 =
          b.mWriteRow - (4 * W + 1) := by
        rw [h.windowSize, windowCount]
        omega
      have hcond : b.mWindowSize * (windowCount - 1) + 1 ≤ b.mWriteRow := by
        rw [h.windowSize, windowCount]
        omega
      rw [copyHead, if_pos hcond, hrow]
      exact hm
    · rw [if_neg (by omega)]
      exact hlast d hd j hj
    · rcases Nat.lt_or_eq_of_le hle with hlt | rfl
      · rw [if_neg (by omega)]
        exact hcopied i hi hlt j hj
      · rw [if_pos rfl]
        simpa using hlast 0 (by omega) j hj
  · refine ⟨b.mBuffer, v, ?_, hv, hlast, fun i hi hle => by omega⟩
    have hcond : ¬ b.mWindowSize * (windowCount - 1) + 1 ≤ b.mWriteRow := by
      rw [h.windowSize, windowCount]
      omega
    rw [copyHead, if_neg hcond]

/-- For fewer than 2^31 rows and columns the copy is the one that the machine makes, with `size_t`
and `int`. -/
theorem Slides.copyHead_sized (h : b.Slides W C w n) (hcopy : 4 * W + 1 ≤ b.mWriteRow)
    (hrows : 5 * W < 2 ^ 31) (hcols : C < 2 ^ 31) (hfits : 2 * b.mBuffer.data.length < 2 ^ 64)
    (sizeofT : Nat) :
    b.copyHead = (TMatrix.SizeT.copyAt (.plenty sizeofT) b.mBuffer
      (.ofNat (b.mWriteRow - (4 * W + 1))) b.mBuffer (.ofNat b.mWriteRow) (.ofNat b.mWriteRow)
      false).toOption := by
  obtain ⟨v, hv, -⟩ := h.rows
  have hhigh := h.high
  have howned : TMatrix.SizeT.Owned b.mBuffer := by
    refine ⟨?_, by omega⟩
    rw [hv.rowCount, hv.colCount]
    exact hv.size_le
  have hrow (i : Nat) (hi : i < 5 * W) : (Int32.ofNat i).toInt = i :=
    Int32.toInt_ofNat_of_lt (by omega)
  have hindex : b.mWriteRow - b.mWindowSize * (windowCount - 1) - 1 =
      b.mWriteRow - (4 * W + 1) := by
    rw [h.windowSize, windowCount]
    omega
  have hcond : b.mWindowSize * (windowCount - 1) + 1 ≤ b.mWriteRow := by
    rw [h.windowSize, windowCount]
    omega
  have hsized : (TMatrix.SizeT.copyAt (.plenty sizeofT) b.mBuffer
      (.ofNat (b.mWriteRow - (4 * W + 1))) b.mBuffer (.ofNat b.mWriteRow) (.ofNat b.mWriteRow)
      false).toOption = _ :=
    TMatrix.SizeT.copyAt_eq sizeofT b.mBuffer ⟨b.mBuffer, howned⟩ howned (hv.rowCount ▸ hrows)
      (hv.colCount ▸ hcols) (hv.rowCount ▸ hrows) (hv.colCount ▸ hcols) (by simp only; omega)
      false
  rw [copyHead, if_pos hcond, hindex, hsized, hrow _ hhigh, hrow _ (by omega)]

/-- Right after `advance` number `n`: the window has the rows from `s` on, which are the last `W`
vectors, and `r` is the row to write to. -/
structure Shows (b : Buffer α) (W C : Nat) (w : Int → Nat → α) (n s r : Nat) : Prop where
  window : b.mWindow = ⟨some (C * s), W, C⟩
  windowSize : b.mWindowSize = W
  writeRow : b.mWriteRow = r
  windowEnd : s + W ≤ 5 * W
  low : W ≤ r + 1
  high : r < 5 * W
  apart : r < s ∨ s + W ≤ r
  rows : ∃ v, b.mBuffer.Describes (5 * W) C v ∧
    (∀ i < W, ∀ j < C, v (s + i) j = w (n - W + i) j) ∧
    (∀ d, 1 ≤ d → d < W → ∀ j < C, v (r - d) j = w (n - d) j) ∧
    ∀ i, 4 * W + 1 ≤ i → i < r → ∀ j < C, v (i - (4 * W + 1)) j = w (n - (r - i : Nat)) j

theorem Slides.advance_shows (h : b.Slides W C w n) (hW : 1 ≤ W) (hC : 1 ≤ C) :
    ∃ s r b', b.advance = some (some (C * r), b') ∧ b'.Shows W C w (n + 1) s r := by
  obtain ⟨m, v, hcopy, hv, hlast, hcopied⟩ := h.copyHead_eq hC
  have hlow := h.low
  have hhigh := h.high
  have hsize := h.windowSize
  -- the row that is written next
  obtain ⟨r, hr⟩ : ∃ r, r = if b.mWindowSize * windowCount ≤ b.mWriteRow + 1
      then b.mWindowSize - 1 else b.mWriteRow + 1 := ⟨_, rfl⟩
  have hrow : r = if b.mWriteRow + 1 = 5 * W then W - 1 else b.mWriteRow + 1 := by
    rw [hr, hsize, windowCount]
    split <;> split <;> omega
  have hbound : r < 5 * W := by
    rw [hrow]
    split <;> omega
  have hwindowAt : m.rowAt ((b.mWriteRow + 1 : Nat) - b.mWindowSize : Int) =
      some (C * (b.mWriteRow + 1 - W)) := by
    have hindex : ((b.mWriteRow + 1 : Nat) - b.mWindowSize : Int) =
        (b.mWriteRow + 1 - W : Nat) := by
      rw [hsize]
      omega
    rw [hindex]
    exact hv.rowAt_eq (by omega)
  have hrowAt : m.rowAt (r : Nat) = some (C * r) := hv.rowAt_eq hbound
  refine ⟨b.mWriteRow + 1 - W, r, { b with
    mBuffer := m
    mWindow := { b.mWindow with data := some (C * (b.mWriteRow + 1 - W)) }
    mWriteRow := r }, ?_, ?_, hsize, rfl, by omega, ?_, hbound, ?_, v, hv, ?_, ?_, ?_⟩
  · rw [advance, if_neg (by omega), hcopy]
    simp only [Option.bind_eq_bind, Option.bind_some, Bool.true_eq_false, if_false, hwindowAt]
    rw [← hr, hrowAt]
    rfl
  · simp only [h.windowRows, h.windowCols]
  · rw [hrow]
    split <;> omega
  · rw [hrow]
    split <;> omega
  · intro i hi j hj
    have heq := hlast (W - 1 - i) (by omega) j hj
    have hcell : b.mWriteRow + 1 - W + i = b.mWriteRow - (W - 1 - i) := by omega
    have hvector : ((n + 1 : Nat) : Int) - W + i = n - (W - 1 - i : Nat) := by omega
    rw [hcell, hvector, heq]
  · intro d hd hlt j hj
    rw [hrow]
    split
    · -- the window starts again on the copies
      have heq := hcopied (5 * W - d) (by omega) (by omega) j hj
      have hcell : W - 1 - d = 5 * W - d - (4 * W + 1) := by omega
      have hvector : ((n + 1 : Nat) : Int) - d = n - (b.mWriteRow - (5 * W - d) : Nat) := by omega
      rw [hcell, hvector, heq]
    · have heq := hlast (d - 1) (by omega) j hj
      have hcell : b.mWriteRow + 1 - d = b.mWriteRow - (d - 1) := by omega
      have hvector : ((n + 1 : Nat) : Int) - d = n - (d - 1 : Nat) := by omega
      rw [hcell, hvector, heq]
  · intro i hi hlt j hj
    have hnext : r = b.mWriteRow + 1 := by
      rw [hrow] at hlt ⊢
      split at hlt
      · omega
      · rw [if_neg (by assumption)]
    have heq := hcopied i hi (by omega) j hj
    have hvector : ((n + 1 : Nat) : Int) - (r - i : Nat) = n - (b.mWriteRow - i : Nat) := by omega
    rw [hvector, heq]

omit [Inhabited α] in
/-- Writing vector `n` to the returned row. -/
theorem Shows.write_slides {s r : Nat} (h : b.Shows W C w n s r) {xs : List α}
    (hlen : xs.length = C) (hx : ∀ j < C, xs[j]? = some (w n j)) :
    ∃ b', b.write (C * r) xs = some b' ∧ b'.Slides W C w n := by
  obtain ⟨v, hv, -, hlast, hcopied⟩ := h.rows
  have hlow := h.low
  have hhigh := h.high
  obtain ⟨data, hdata, hdescribes⟩ := hv.stores_row hhigh hlen hx
  refine ⟨{ b with mBuffer := { b.mBuffer with data := data } }, ?_, h.windowSize,
    by rw [h.window], by rw [h.window], h.writeRow ▸ hlow, h.writeRow ▸ hhigh, _, hdescribes,
    fun d hd j hj => ?_, fun i hi hlt j hj => ?_⟩
  · rw [write, Nat.mul_comm, hdata]
    rfl
  · change (if b.mWriteRow - d = r then w n j else v (b.mWriteRow - d) j) = _
    rw [h.writeRow]
    rcases Nat.eq_zero_or_pos d with rfl | hpos
    · simp
    · rw [if_neg (by omega), hlast d hpos hd j hj]
  · change i < b.mWriteRow at hlt
    change (if i - (4 * W + 1) = r then w n j else v (i - (4 * W + 1)) j) =
      w (n - (b.mWriteRow - i : Nat)) j
    rw [h.writeRow] at hlt ⊢
    rw [if_neg (by omega), hcopied i hi hlt j hj]

omit [Inhabited α] in
/-- What is read through a window on the rows from `s` on. -/
theorem matrix_of_rows {s : Nat} {v : Nat → Nat → α} {rows : Nat → List α}
    (hwindow : b.mWindow = ⟨some (C * s), W, C⟩) (hv : b.mBuffer.Describes (5 * W) C v)
    (hend : s + W ≤ 5 * W) (hlen : ∀ i, (rows i).length = C)
    (hx : ∀ i < W, ∀ j < C, (rows i)[j]? = some (v (s + i) j)) :
    b.matrix = some ((List.range W).map rows) := by
  rw [matrix, hwindow]
  refine mapM_eq_some fun i hi => ?_
  have hi : i < W := List.mem_range.mp hi
  obtain ⟨xs, hxs, hxlen, hcells⟩ := hv.loads_row (i := s + i) (by omega)
  have hindex : C * s + i * C = (s + i) * C := by rw [Nat.add_mul, Nat.mul_comm C s]
  rw [hindex, hxs]
  congr 1
  refine List.ext_getElem? fun j => ?_
  by_cases hj : j < C
  · rw [hcells j hj, hx i hi j hj]
  · rw [List.getElem?_eq_none (by omega), List.getElem?_eq_none (by rw [hlen]; omega)]

section Read

variable {s r : Nat} {vector : Int → List α}

omit [Inhabited α] in
theorem Shows.matrix_eq (h : b.Shows W C w n s r) (hlen : ∀ k, (vector k).length = C)
    (hx : ∀ k, ∀ j < C, (vector k)[j]? = some (w k j)) :
    b.matrix = some ((List.range W).map fun i : Nat => vector (n - W + i)) := by
  obtain ⟨v, hv, hrows, -, -⟩ := h.rows
  refine matrix_of_rows h.window hv h.windowEnd (fun i => hlen _) fun i hi j hj => ?_
  rw [hx _ j hj, hrows i hi j hj]

omit [Inhabited α] in
/-- What is written to the returned row is not in the window. -/
theorem Shows.write_matrix_eq (h : b.Shows W C w n s r) (hlen : ∀ k, (vector k).length = C)
    (hx : ∀ k, ∀ j < C, (vector k)[j]? = some (w k j)) {xs : List α} (hxs : xs.length = C)
    (hcells : ∀ j < C, xs[j]? = some (w n j)) {b' : Buffer α}
    (hwrite : b.write (C * r) xs = some b') :
    b'.matrix = some ((List.range W).map fun i : Nat => vector (n - W + i)) := by
  obtain ⟨v, hv, hrows, -, -⟩ := h.rows
  obtain ⟨data, hdata, hdescribes⟩ := hv.stores_row h.high hxs hcells
  rw [write, Nat.mul_comm, hdata] at hwrite
  obtain rfl := Option.some.inj hwrite
  refine matrix_of_rows (s := s) h.window hdescribes h.windowEnd (fun i => hlen _)
    fun i hi j hj => ?_
  have hrow : s + i ≠ r := by
    have hapart := h.apart
    omega
  rw [hx _ j hj, if_neg hrow, hrows i hi j hj]

end Read

/-- The rounds keep the invariant. -/
theorem Slides.rounds_slides (h : b.Slides W C w 0) (hW : 1 ≤ W) (hC : 1 ≤ C)
    {vectors : Nat → List α} (hlen : ∀ k, 1 ≤ k → (vectors k).length = C)
    (hx : ∀ k, ∀ j < C, (vectors (k + 1))[j]? = some (w (k + 1 : Nat) j)) (n : Nat) :
    ∃ b', b.rounds vectors n = some b' ∧ b'.Slides W C w n := by
  induction n with
  | zero => exact ⟨b, rfl, h⟩
  | succ n ih =>
    obtain ⟨b₁, hrounds, hslides⟩ := ih
    obtain ⟨s, r, b₂, hadvance, hshows⟩ := hslides.advance_shows hW hC
    obtain ⟨b₃, hwrite, hslides'⟩ := hshows.write_slides (hlen (n + 1) (by omega)) (hx n)
    refine ⟨b₃, ?_, hslides'⟩
    rw [rounds, hrounds]
    simp only [Option.bind_eq_bind, Option.bind_some, hadvance, hwrite]

end Slides

/-! ## The window -/

/-- Vector number `k`: those before the first one are 0. -/
def vectorAt [Zero α] (C : Nat) (vectors : Nat → List α) (k : Int) : List α :=
  if k ≤ 0 then List.replicate C 0 else vectors k.toNat

/-- Its values. -/
def cellAt [Zero α] (C : Nat) (vectors : Nat → List α) (k : Int) (j : Nat) : α :=
  (vectorAt C vectors k)[j]?.getD 0

section Vectors

variable [Zero α] {C : Nat} {vectors : Nat → List α}

omit [Inhabited α] in
theorem length_vectorAt (hlen : ∀ k, 1 ≤ k → (vectors k).length = C) (k : Int) :
    (vectorAt C vectors k).length = C := by
  unfold vectorAt
  split
  · exact List.length_replicate
  · exact hlen _ (by omega)

omit [Inhabited α] in
theorem getElem?_vectorAt (hlen : ∀ k, 1 ≤ k → (vectors k).length = C) (k : Int) {j : Nat}
    (hj : j < C) : (vectorAt C vectors k)[j]? = some (cellAt C vectors k j) := by
  have hin : j < (vectorAt C vectors k).length := (length_vectorAt hlen k).symm ▸ hj
  simp only [cellAt, List.getElem?_eq_getElem hin, Option.getD_some]

omit [Inhabited α] in
theorem cellAt_of_nonpos {k : Int} (hk : k ≤ 0) (j : Nat) : cellAt C vectors k j = 0 := by
  simp only [cellAt, vectorAt, if_pos hk, List.getElem?_replicate]
  split <;> rfl

omit [Inhabited α] in
theorem getElem?_vectors (hlen : ∀ k, 1 ≤ k → (vectors k).length = C) (k : Nat) {j : Nat}
    (hj : j < C) : (vectors (k + 1))[j]? = some (cellAt C vectors (k + 1 : Nat) j) := by
  have hat : vectorAt C vectors (k + 1 : Nat) = vectors (k + 1) := by
    rw [vectorAt, if_neg (by omega), Int.toNat_natCast]
  rw [← hat]
  exact getElem?_vectorAt hlen _ hj

end Vectors

/-- A buffer whose sizes were not set: no constructor writes the last two members, so they hold
anything. -/
def unset (windowSize writeRow : Nat) : Buffer α :=
  ⟨⟨[], 0, 0, "no error"⟩, ⟨none, 0, 0⟩, windowSize, writeRow⟩

/-- `Buffer()`, and then `set_sizes(pRowCount, pColCount)`. -/
def thenSetSizes [Zero α] (memory : Nat × Nat) (rowCount colCount : Nat) : Option (Buffer α) :=
  (unset memory.1 memory.2).setSizes rowCount colCount

/-- `Buffer(pRowCount, pColCount)`. -/
def ofSizes [Zero α] (memory : Nat × Nat) (rowCount colCount : Nat) : Option (Buffer α) := do
  let b ← (unset memory.1 memory.2).setSizes rowCount colCount
  some { b with mWriteRow := 0 }

omit [Inhabited α] in
/-- The rows that `advance` names: those of the copy, the first one of the window and the row
to write to.  These are integers; where one is negative, a `size_t` wraps around. -/
def advanceRows (b : Buffer α) : List Int :=
  let size : Int := b.mWindowSize
  let writeRow : Int := b.mWriteRow
  (if size * (windowCount - 1) + 1 ≤ writeRow then
      [writeRow - size * (windowCount - 1) - 1, writeRow] else []) ++
    [writeRow + 1 - size,
      if size * windowCount ≤ writeRow + 1 then size - 1 else writeRow + 1]

/-- All of them are rows of the buffer. -/
def RowsInside (b : Buffer α) (W : Nat) : Prop := ∀ i ∈ b.advanceRows, 0 ≤ i ∧ i < 5 * W

/-- After any rounds, buffers that were built in the two ways show the same matrix, and name
rows of the buffer. -/
def Usable (α : Type) [Inhabited α] [Zero α] (W C : Nat) : Prop :=
  ∀ (memory memory' : Nat × Nat) (vectors : Nat → List α),
    (∀ k, 1 ≤ k → (vectors k).length = C) → ∀ n,
      ∃ b₀ b₀' b b', ofSizes memory W C = some b₀ ∧ thenSetSizes memory' W C = some b₀' ∧
        b₀.rounds vectors n = some b ∧ b₀'.rounds vectors n = some b' ∧
          (b.matrix = b'.matrix ∧ (1 ≤ n → b.matrix.isSome)) ∧ b.RowsInside W ∧ b'.RowsInside W

section Built

variable {b : Buffer α} {W C n : Nat} {w : Int → Nat → α}

omit [Inhabited α] in
theorem Slides.rowsInside (h : b.Slides W C w n) : b.RowsInside W := by
  have hlow := h.low
  have hhigh := h.high
  intro i hi
  simp only [advanceRows, h.windowSize, windowCount, List.mem_append, List.mem_cons,
    List.not_mem_nil, or_false] at hi
  rcases hi with hi | rfl | rfl
  · split at hi
    · rcases List.mem_pair.mp hi with rfl | rfl <;> omega
    · simp at hi
  · omega
  · split <;> omega

/-- After some rounds a buffer shows the vectors before the last one. -/
theorem Slides.rounds_matrix [Zero α] {vectors : Nat → List α}
    (h : b.Slides W C (cellAt C vectors) 0) (hW : 1 ≤ W) (hC : 1 ≤ C)
    (hlen : ∀ k, 1 ≤ k → (vectors k).length = C) (n : Nat) :
    ∃ b', b.rounds vectors (n + 1) = some b' ∧ b'.Slides W C (cellAt C vectors) (n + 1) ∧
      b'.matrix = some ((List.range W).map fun i : Nat =>
        vectorAt C vectors ((n + 1 : Nat) - W + i)) := by
  obtain ⟨b₁, hrounds, hslides⟩ :=
    h.rounds_slides hW hC hlen (fun k _ => getElem?_vectors hlen k) n
  obtain ⟨s, r, b₂, hadvance, hshows⟩ := hslides.advance_shows hW hC
  have hvector : ∀ j < C, (vectors (n + 1))[j]? = some (cellAt C vectors (n + 1 : Nat) j) :=
    fun j => getElem?_vectors hlen n
  obtain ⟨b₃, hwrite, hslides'⟩ := hshows.write_slides (hlen (n + 1) (by omega)) hvector
  refine ⟨b₃, ?_, hslides', ?_⟩
  · rw [rounds, hrounds]
    simp only [Option.bind_eq_bind, Option.bind_some, hadvance, hwrite]
  · exact hshows.write_matrix_eq (length_vectorAt hlen)
      (fun k _ => getElem?_vectorAt hlen k) (hlen (n + 1) (by omega)) hvector hwrite

end Built

/-- The constructor with sizes writes from row 0 on.  That is a row before the window, unless
the window has one row. -/
theorem usable_iff [Zero α] {W C : Nat} (hW : 1 ≤ W) (hC : 1 ≤ C) : Usable α W C ↔ W = 1 := by
  constructor
  · intro h
    obtain ⟨b₀, -, b, -, hbuilt, -, hrounds, -, -, hinside, -⟩ :=
      h (0, 0) (0, 0) (fun _ => List.replicate C 0) (fun _ _ => List.length_replicate) 0
    obtain ⟨b₁, hsizes, hsize, -⟩ :=
      (unset 0 0 : Buffer α).setSizes_slides_from (C := C) (w := fun _ _ => 0)
        (fun _ _ _ => rfl) (r := W) (Nat.le_succ W) (by omega)
    rw [ofSizes, hsizes] at hbuilt
    obtain rfl := Option.some.inj hbuilt
    obtain rfl := Option.some.inj hrounds
    have hfirst := (hinside (0 + 1 - b₁.mWindowSize) (by simp [advanceRows])).1
    rw [hsize] at hfirst
    omega
  · rintro rfl memory memory' vectors hlen n
    have hzero : ∀ k ≤ 0, ∀ j, cellAt C vectors k j = 0 := fun _ hk => cellAt_of_nonpos hk
    obtain ⟨b₀, hsizes, -, -, hdata, hslides⟩ :=
      (unset memory.1 memory.2 : Buffer α).setSizes_slides_from (W := 1) (C := C) hzero (r := 0)
        (by omega) (by omega)
    obtain ⟨b₀', hsizes', -, hrow', hdata', hslides'⟩ :=
      (unset memory'.1 memory'.2 : Buffer α).setSizes_slides_from (W := 1) (C := C) hzero (r := 1)
        (by omega) (by omega)
    have hbuilt : ofSizes memory 1 C = some { b₀ with mWriteRow := 0 } := by
      rw [ofSizes, hsizes]
      rfl
    have hsame : { b₀' with mWriteRow := 1 } = b₀' := by rw [← hrow']
    rw [hsame] at hslides'
    cases n with
    | zero =>
      refine ⟨_, b₀', _, b₀', hbuilt, hsizes', rfl, rfl, ⟨?_, by omega⟩, hslides.rowsInside,
        hslides'.rowsInside⟩
      simp only [matrix, hdata, hdata', unset]
      rfl
    | succ n =>
      obtain ⟨b, hrounds, hslides, hmatrix⟩ := hslides.rounds_matrix hW hC hlen n
      obtain ⟨b', hrounds', hslides', hmatrix'⟩ := hslides'.rounds_matrix hW hC hlen n
      exact ⟨_, b₀', b, b', hbuilt, hsizes', hrounds, hrounds',
        ⟨hmatrix.trans hmatrix'.symm, fun _ => by rw [hmatrix]; rfl⟩, hslides.rowsInside,
        hslides'.rowsInside⟩

theorem usable_iff_one : Usable Int 1 3 :=
  (usable_iff (by decide) (by decide)).mpr rfl

/-- A window of two rows would start before the buffer. -/
theorem two_rows_unusable : ¬ Usable Int 2 2 := by
  intro h
  obtain ⟨b₀, -, b, -, hbuilt, -, hrounds, -, -, hinside, -⟩ :=
    h (0, 0) (0, 0) (fun _ => [0, 0]) (fun _ _ => rfl) 0
  obtain rfl := Option.some.inj hrounds
  have hrows : (ofSizes (0, 0) 2 2 : Option (Buffer Int)).map advanceRows = some [-1, 1] := by
    decide
  rw [hbuilt] at hrows
  have hrows : b₀.advanceRows = [-1, 1] := Option.some.inj hrows
  exact absurd (hinside (-1) (by rw [hrows]; decide)).1 (by decide)

end Buffer

end Rubyk
