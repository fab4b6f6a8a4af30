/-
  Core/TMatrixSizes.lean --- `TMatrix` of `src/core/tmatrix.h` and
  `src/core/off/tmatrix.cpp`: the operations that change the sizes, as the machine
  computes them.

  NUMBERS.  A `size_t` is a natural number below 2^64, and sums, differences and products
  wrap around; an `int` is an `Int32`.  The tests `< 0` on a `size_t` are never true.

  MEMORY.  The data of a matrix is a list as long as `mStorageSize`.  `malloc` and
  `realloc` may refuse a block; one that they grant has the cells asked for, and the new
  ones hold `default`.

  UNDEFINED.  A fault says why the code has no meaning: it uses memory outside of the data,
  divides by zero, or formats a text with an argument too few.

  `Core/TMatrix.lean` has the same code for sizes that do not wrap around and an allocator
  that refuses nothing; `copyAt_eq` says so.
-/
import Rubyk.Core.TMatrix
import Rubyk.Lib.Runs

set_option autoImplicit false

namespace Rubyk.TMatrix.SizeT

open Lib

/-- What `malloc` and `realloc` answer, and `sizeof(T)`. -/
structure Allocator where
  /-- there is a block of so many cells -/
  grants : Nat → Bool
  sizeofT : Nat

/-- All allocations succeed. -/
def Allocator.plenty (sizeofT : Nat) : Allocator := ⟨fun _ => true, sizeofT⟩

/-- How an operation can be undefined. -/
inductive Fault where
  | memory
  | divisionByZero
  | format
  deriving DecidableEq, Repr

/-- The value of an expression of type `size_t`. -/
def wrap (n : Int) : Nat := (n % 2 ^ 64).toNat

/-- What `%i` prints of a `size_t`. -/
def printed (n : Nat) : Int := (Int32.ofNat n).toInt

theorem wrap_lt (n : Int) : wrap n < 2 ^ 64 := by
  unfold wrap
  omega

theorem wrap_of_lt {n : Nat} (h : n < 2 ^ 64) : wrap n = n := by
  unfold wrap
  omega

section Operations

variable {α : Type}

/-- An `int` that is a row, as a `size_t`: a negative one counts from the end. -/
def rowOf (m : TMatrix α) (i : Int32) : Nat :=
  if i < 0 then wrap (m.mRowCount + i.toInt) else i.toInt.toNat

/-- `check_sizes`. -/
def checkSizes (m : TMatrix α) (msg : String) (other : TMatrix α) (startRow endRow : Int32)
    (allowColCountChange : Bool) : SizeCheck :=
  let last := rowOf other endRow
  let first := rowOf other startRow
  let sizes := s!"{printed other.mRowCount}x{printed other.mColCount}"
  if other.mRowCount ≤ first then
    .error
      s!"size error ({msg}): bad start row {startRow.toInt} ({printed first}) of matrix {sizes}"
  else if other.mRowCount ≤ last then
    .error s!"size error ({msg}): bad end row {endRow.toInt} ({printed last}) of matrix {sizes}"
  else if other.mColCount ≠ m.mColCount ∧ allowColCountChange = false then .undefined
  else if other.mColCount = 0 then
    .error s!"size error ({msg}): source matrix {sizes} is empty."
  else .rows first last

variable [Inhabited α]

/-- `reallocate`. -/
def reallocate (mem : Allocator) (m : TMatrix α) (size : Nat) : Bool × TMatrix α :=
  if mem.grants size then (true, m.reallocate size)
  else (false, m.setError s!"could not reallocate {printed m.data.length} to {printed size}")

/-- `check_alloc`. -/
def checkAlloc (mem : Allocator) (m : TMatrix α) (size : Nat) : Bool × TMatrix α :=
  if m.data.length = 0 then
    let storage := if size < 16 then 16 else size
    if mem.grants storage then (true, { m with data := List.replicate storage default })
    else (false, m.setError s!"could not allocate {printed storage}x{mem.sizeofT}")
  else if m.data.length < size then reallocate mem m size
  else (true, m)

/-- `raw_copy`: `source` has the cells from `pData` on. -/
def rawCopy (mem : Allocator) (m : TMatrix α) (rowOffset : Nat) (source : List α) (dataSize : Nat)
    (resize : Bool) : Except Fault (Bool × TMatrix α) :=
  let currentSize := wrap (rowOffset * m.mColCount : Nat)
  match checkAlloc mem m (wrap (currentSize + dataSize : Nat)) with
  | (false, m) => .ok (false, m)
  | (true, m) =>
      let m := if m.mColCount = 0 then { m with mColCount := dataSize, mRowCount := 1 } else m
      -- `memcpy`
      match (loads source 0 dataSize).bind (stores m.data currentSize) with
      | none => .error .memory
      | some data =>
          if m.mColCount = 0 then .error .divisionByZero
          else
            let rowCount := wrap (rowOffset + dataSize / m.mColCount : Nat)
            if m.mRowCount < rowCount ∨ resize = true then
              .ok (true, { m with data := data, mRowCount := rowCount })
            else .ok (true, { m with data := data })

/-- `copy_at`. -/
def copyAt (mem : Allocator) (m : TMatrix α) (row : Int32) (other : TMatrix α)
    (startRow endRow : Int32) (resize : Bool) : Except Fault (Bool × TMatrix α) :=
  match checkSizes m "copy" other startRow endRow (row == 0) with
  | .undefined => .error .format
  | .error text => .ok (false, m.setError text)
  | .rows first last =>
      if m.mRowCount < rowOf m row then
        -- copy can start at most at the end of the current matrix
        let rows := printed m.mRowCount
        let cols := printed m.mColCount
        .ok (false, m.setError
          s!"cannot start copying at {row.toInt} in matrix {rows}x{cols}")
      else
        let rowCount := wrap (last - first + 1)
        rawCopy mem { m with mColCount := other.mColCount } (rowOf m row)
          (other.data.drop (wrap (first * other.mColCount : Nat)))
          (wrap (rowCount * other.mColCount : Nat)) (resize && row == 0)

/-- `copy`. -/
def copy (mem : Allocator) (m other : TMatrix α) (startRow endRow : Int32) :
    Except Fault (Bool × TMatrix α) :=
  copyAt mem m 0 other startRow endRow true

/-- `append` of a vector. -/
def appendVector (mem : Allocator) (m : TMatrix α) (vector : List α) :
    Except Fault (Bool × TMatrix α) :=
  rawCopy mem m m.mRowCount vector vector.length false

/-- `append` of a value. -/
def appendValue (mem : Allocator) (m : TMatrix α) (value : α) : Except Fault (Bool × TMatrix α) :=
  if 1 < m.mRowCount then
    .ok (false, m.setError ("could not append: matrix is not a vector " ++
      s!"({printed m.mRowCount}x{printed m.mColCount})"))
  else
    match checkAlloc mem { m with mRowCount := 1 } (wrap (m.mColCount + 1)) with
    | (false, m) => .ok (false, m)
    | (true, m) =>
        match store m.data m.mColCount value with
        | none => .error .memory
        | some data => .ok (true, { m with data := data, mColCount := wrap (m.mColCount + 1) })

/-- `append` of a matrix: the row count becomes an `int`. -/
def appendMatrix (mem : Allocator) (m other : TMatrix α) (startRow endRow : Int32) :
    Except Fault (Bool × TMatrix α) :=
  copyAt mem m (Int32.ofNat m.mRowCount) other startRow endRow false

/-- `cast_append`: `vector` has the values after the cast. -/
def castAppend (mem : Allocator) (m : TMatrix α) (vector : List α) :
    Except Fault (Bool × TMatrix α) :=
  if m.mColCount = 0 then .error .divisionByZero
  else if vector.length % m.mColCount ≠ 0 then
    .ok (false, m.setError ("could not append vector: column count not matching " ++
      s!"({printed vector.length} is not a multiple of {printed m.mColCount})"))
  else
    let currentSize := wrap (m.mRowCount * m.mColCount : Nat)
    match checkAlloc mem m (wrap (currentSize + vector.length : Nat)) with
    | (false, m) => .ok (false, m)
    | (true, m) =>
        match stores m.data currentSize vector with
        | none => .error .memory
        | some data => .ok (true, { m with
            data := data
            mRowCount := wrap (m.mRowCount + vector.length / m.mColCount : Nat) })

/-- `set_sizes`. -/
def setSizes (mem : Allocator) (m : TMatrix α) (rowCount colCount : Nat) : Bool × TMatrix α :=
  match reallocate mem m (wrap (rowCount * colCount : Nat)) with
  | (false, m) => (false, m)
  | (true, m) => (true, { m with mRowCount := rowCount, mColCount := colCount })

/-- `identity`. -/
def identity [Zero α] [One α] (mem : Allocator) (m : TMatrix α) (rowCount : Nat) :
    Except Fault (Bool × TMatrix α) :=
  match setSizes mem m rowCount rowCount with
  | (false, m) => .ok (false, m)
  | (true, m) =>
      -- `clear`, and the loop over the diagonal
      let zeros := (List.range (wrap (m.mRowCount * m.mColCount : Nat))).foldlM
        (fun data i => store data i 0) m.data
      let ones := zeros.bind fun data => (List.range rowCount).foldlM
        (fun data i => store data (wrap (i * m.mColCount + i : Nat)) 1) data
      match ones with
      | none => .error .memory
      | some data => .ok (true, { m with data := data })

end Operations

/-! ## Memory -/

section Memory

variable {α : Type} [Inhabited α] {mem : Allocator} {m : TMatrix α} {size : Nat}

/-- There is memory for so many cells, or the allocator has it. -/
def Granted (mem : Allocator) (m : TMatrix α) (size : Nat) : Prop :=
  if m.data.length = 0 then mem.grants (max 16 size) = true
  else size ≤ m.data.length ∨ mem.grants size = true

instance : Decidable (Granted mem m size) :=
  inferInstanceAs (Decidable (if m.data.length = 0 then mem.grants (max 16 size) = true
    else size ≤ m.data.length ∨ mem.grants size = true))

omit [Inhabited α] in
theorem granted_plenty (sizeofT : Nat) (m : TMatrix α) (size : Nat) :
    Granted (.plenty sizeofT) m size := by
  unfold Granted
  split
  · rfl
  · exact Or.inr rfl

/-- The storage that `check_alloc` leaves. -/
def grown (m : TMatrix α) (size : Nat) : Nat :=
  if m.data.length = 0 then max 16 size else max m.data.length size

omit [Inhabited α] in
theorem size_le_grown (m : TMatrix α) (size : Nat) : size ≤ grown m size := by
  unfold grown
  split <;> omega

omit [Inhabited α] in
theorem length_le_grown (m : TMatrix α) (size : Nat) : m.data.length ≤ grown m size := by
  unfold grown
  split <;> omega

omit [Inhabited α] in
theorem grown_lt (hm : m.data.length < 2 ^ 64) (hsize : size < 2 ^ 64) : grown m size < 2 ^ 64 := by
  unfold grown
  split <;> omega

theorem checkAlloc_granted (h : Granted mem m size) :
    ∃ data, checkAlloc mem m size = (true, { m with data := data }) ∧
      data.length = grown m size ∧ ∀ k < m.data.length, data[k]? = m.data[k]? := by
  have hstorage : (if size < 16 then 16 else size) = max 16 size := by
    split <;> omega
  unfold checkAlloc grown
  unfold Granted at h
  by_cases hempty : m.data.length = 0
  · rw [if_pos hempty] at h
    simp only [if_pos hempty, hstorage, if_pos h]
    exact ⟨_, rfl, List.length_replicate, fun k hk => by omega⟩
  · rw [if_neg hempty] at h
    rw [if_neg hempty, if_neg hempty]
    by_cases hlt : m.data.length < size
    · have hgrants : mem.grants size = true := h.resolve_left (by omega)
      rw [if_pos hlt, reallocate, if_pos hgrants]
      refine ⟨_, rfl, ?_, fun k hk => ?_⟩
      · simp only [List.length_append, List.length_take, List.length_replicate]
        omega
      · rw [List.getElem?_append_left (by rw [List.length_take]; omega),
          List.getElem?_take_of_lt (by omega)]
    · rw [if_neg hlt]
      exact ⟨m.data, rfl, by omega, fun k _ => rfl⟩

theorem checkAlloc_refused (h : ¬ Granted mem m size) :
    ∃ text, checkAlloc mem m size = (false, m.setError text) := by
  have hstorage : (if size < 16 then 16 else size) = max 16 size := by
    split <;> omega
  unfold checkAlloc
  unfold Granted at h
  by_cases hempty : m.data.length = 0
  · rw [if_pos hempty] at h
    simp only [if_pos hempty, hstorage, if_neg h]
    exact ⟨_, rfl⟩
  · rw [if_neg hempty, not_or] at h
    rw [if_neg hempty, if_pos (by omega), reallocate, if_neg h.2]
    exact ⟨_, rfl⟩

end Memory

/-! ## `raw_copy` -/

section RawCopy

variable {α : Type} [Inhabited α] {mem : Allocator} {m : TMatrix α} {off dataSize : Nat}
  {source : List α}

/-- What a copy to row `off` reads and writes when there is room for it. -/
structure Copied (m : TMatrix α) (off : Nat) (source : List α) (dataSize : Nat)
    (data : List α) : Prop where
  length : data.length = grown m (off * m.mColCount + dataSize)
  new : ∀ k < dataSize, data[off * m.mColCount + k]? = source[k]?
  old : ∀ k < m.data.length, k < off * m.mColCount ∨ off * m.mColCount + dataSize ≤ k →
    data[k]? = m.data[k]?

omit [Inhabited α] in
theorem stores_checkAlloc {data : List α}
    (hlen : data.length = grown m (off * m.mColCount + dataSize))
    (hold : ∀ k < m.data.length, data[k]? = m.data[k]?) (hsource : dataSize ≤ source.length) :
    ∃ data', (loads source 0 dataSize).bind (stores data (off * m.mColCount)) = some data' ∧
      Copied m off source dataSize data' := by
  have hall : 0 + dataSize ≤ source.length := by omega
  obtain ⟨xs, hxs, hxslen, hcells⟩ := loads_spec hall
  have hroom : off * m.mColCount + xs.length ≤ data.length := by
    rw [hxslen, hlen]
    exact size_le_grown m _
  obtain ⟨data', hdata', hlen', hcells'⟩ := stores_spec hroom
  refine ⟨data', by rw [hxs]; exact hdata', hlen'.trans hlen, fun k hk => ?_, fun k hk hout => ?_⟩
  · rw [hcells', if_pos (by omega), Nat.add_sub_cancel_left, hcells k hk, Nat.zero_add]
  · rw [hcells', if_neg (by omega), hold k hk]

/-- The rows that a matrix has after a copy to row `off`. -/
def rowsAfter (m : TMatrix α) (off dataSize : Nat) (resize : Bool) : Nat :=
  if m.mRowCount < off + dataSize / m.mColCount ∨ resize = true
    then off + dataSize / m.mColCount else m.mRowCount

theorem rawCopy_refused (hoff : off * m.mColCount < 2 ^ 64)
    (h : ¬ Granted mem m (wrap (off * m.mColCount + dataSize : Nat))) (resize : Bool) :
    ∃ text, rawCopy mem m off source dataSize resize = .ok (false, m.setError text) := by
  obtain ⟨text, htext⟩ := checkAlloc_refused h
  refine ⟨text, ?_⟩
  rw [rawCopy, wrap_of_lt hoff, htext]

theorem rawCopy_granted (hcols : m.mColCount ≠ 0) (hsource : dataSize ≤ source.length)
    (hfits : off * m.mColCount + dataSize < 2 ^ 64)
    (h : Granted mem m (off * m.mColCount + dataSize)) (resize : Bool) :
    ∃ data, rawCopy mem m off source dataSize resize =
        .ok (true, { m with data := data, mRowCount := rowsAfter m off dataSize resize }) ∧
      Copied m off source dataSize data := by
  obtain ⟨data, halloc, hlen, hold⟩ := checkAlloc_granted h
  obtain ⟨data', hdata', hcopied⟩ := stores_checkAlloc hlen hold hsource
  refine ⟨data', ?_, hcopied⟩
  have hrows : off + dataSize / m.mColCount < 2 ^ 64 := by
    have hoff : off ≤ off * m.mColCount := Nat.le_mul_of_pos_right off (Nat.pos_of_ne_zero hcols)
    have hdiv : dataSize / m.mColCount ≤ dataSize := Nat.div_le_self _ _
    omega
  rw [rawCopy, wrap_of_lt (n := off * m.mColCount) (by omega), wrap_of_lt hfits, halloc]
  simp only [if_neg hcols, hdata', wrap_of_lt hrows, rowsAfter]
  split <;> rfl

/-- The copy leaves the data of one of the two matrices. -/
theorem rawCopy_outside (hcols : m.mColCount ≠ 0) (hm : m.data.length < 2 ^ 64)
    (hoff : off * m.mColCount < 2 ^ 64)
    (hout : source.length < dataSize ∨ 2 ^ 64 ≤ off * m.mColCount + dataSize)
    (h : Granted mem m (wrap (off * m.mColCount + dataSize : Nat))) (resize : Bool) :
    rawCopy mem m off source dataSize resize = .error .memory := by
  obtain ⟨data, halloc, hlen, -⟩ := checkAlloc_granted h
  have hlt : data.length < 2 ^ 64 := hlen ▸ grown_lt hm (wrap_lt _)
  have hnone : (loads source 0 dataSize).bind (stores data (off * m.mColCount)) = none := by
    unfold loads
    split
    · have hxs : ((source.drop 0).take dataSize).length = dataSize := by
        rw [List.length_take, List.length_drop]
        omega
      rw [Option.bind_some, stores, if_neg (by omega)]
    · rfl
  rw [rawCopy, wrap_of_lt hoff, halloc]
  simp only [if_neg hcols, hnone]

end RawCopy

/-! ## `copy_at` -/

section CopyAt

variable {α : Type} {mem : Allocator} {m : TMatrix α} {first last : Nat}

/-- The cells that a matrix claims are its own; `mStorageSize` is a `size_t`. -/
structure Owned (m : TMatrix α) : Prop where
  cells : m.mRowCount * m.mColCount ≤ m.data.length
  fits : m.data.length < 2 ^ 64

/-- A matrix that is used as an operand. -/
structure OwnedMatrix (α : Type) extends TMatrix α where
  owned : Owned toTMatrix

theorem Owned.setError (h : Owned m) (text : String) : Owned (m.setError text) := ⟨h.cells, h.fits⟩

variable {other : OwnedMatrix α} {row startRow endRow : Int32}

theorem checkSizes_eq_rows {msg : String} {allow : Bool} {other : TMatrix α}
    (h : checkSizes m msg other startRow endRow allow = .rows first last) :
    first = rowOf other startRow ∧ last = rowOf other endRow ∧ first < other.mRowCount ∧
      last < other.mRowCount ∧ other.mColCount ≠ 0 ∧
      (other.mColCount = m.mColCount ∨ allow = true) := by
  simp only [checkSizes] at h
  split at h
  · cases h
  · split at h
    · cases h
    · split at h
      · cases h
      · split at h
        · cases h
        · next hfirst hlast hcols hempty =>
          cases h
          refine ⟨rfl, rfl, by omega, by omega, hempty, ?_⟩
          rw [not_and, Bool.not_eq_false] at hcols
          exact Decidable.or_iff_not_imp_left.mpr hcols

/-- The rows to copy are in the other matrix. -/
theorem copySource (other : OwnedMatrix α) (hlast : last < other.mRowCount)
    (hle : first ≤ last + 1) :
    wrap (first * other.mColCount : Nat) = first * other.mColCount ∧
      wrap (wrap ((last : Int) - first + 1) * other.mColCount : Nat) =
        (last + 1 - first) * other.mColCount ∧
      (last + 1 - first) * other.mColCount ≤
        (other.data.drop (first * other.mColCount)).length := by
  have hcells := other.owned.cells
  have hfits := other.owned.fits
  have hend : (last + 1) * other.mColCount ≤ other.mRowCount * other.mColCount :=
    Nat.mul_le_mul_right _ hlast
  have hsum : first * other.mColCount + (last + 1 - first) * other.mColCount =
      (last + 1) * other.mColCount := by
    rw [← Nat.add_mul, Nat.add_sub_cancel' hle]
  have hcount : wrap ((last : Int) - first + 1) * other.mColCount =
      (last + 1 - first) * other.mColCount := by
    rcases Nat.eq_zero_or_pos other.mColCount with hzero | hpos
    · rw [hzero, Nat.mul_zero, Nat.mul_zero]
    · have hlt : last + 1 - first ≤ (last + 1) * other.mColCount :=
        Nat.le_trans (Nat.sub_le _ _) (Nat.le_mul_of_pos_right _ hpos)
      have hcast : (last : Int) - first + 1 = (last + 1 - first : Nat) := by omega
      rw [hcast, wrap_of_lt (by omega)]
  refine ⟨wrap_of_lt (by omega), ?_, ?_⟩
  · rw [hcount]
    exact wrap_of_lt (by omega)
  · rw [List.length_drop]
    omega

/-- A reversed range: the number of cells wraps around, past the end of the other matrix. -/
theorem copySource_reversed (other : OwnedMatrix α) (hcols : other.mColCount ≠ 0)
    (hfirst : first < other.mRowCount) (hlt : last + 1 < first) :
    (other.data.drop (wrap (first * other.mColCount : Nat))).length <
      wrap (wrap ((last : Int) - first + 1) * other.mColCount : Nat) := by
  have hcells := other.owned.cells
  have hfits := other.owned.fits
  have hpos : 1 ≤ other.mColCount := Nat.pos_of_ne_zero hcols
  have hend : first * other.mColCount ≤ other.mRowCount * other.mColCount :=
    Nat.mul_le_mul_right _ hfirst.le
  obtain ⟨k, hk⟩ : ∃ k, k = first - (last + 1) := ⟨_, rfl⟩
  have hkone : 1 * other.mColCount ≤ k * other.mColCount := Nat.mul_le_mul_right _ (by omega)
  have hkfirst : (k + 1) * other.mColCount ≤ first * other.mColCount :=
    Nat.mul_le_mul_right _ (by omega)
  rw [Nat.add_mul] at hkfirst
  have hlek : k ≤ k * other.mColCount := Nat.le_mul_of_pos_right k hpos
  have hcount : wrap ((last : Int) - first + 1) = 2 ^ 64 - k := by
    unfold wrap
    omega
  have hcells' : wrap (wrap ((last : Int) - first + 1) * other.mColCount : Nat) =
      2 ^ 64 - k * other.mColCount := by
    rw [hcount]
    unfold wrap
    have hprod : (2 ^ 64 - k) * other.mColCount =
        2 ^ 64 * (other.mColCount - 1) + (2 ^ 64 - k * other.mColCount) := by
      rw [Nat.sub_mul, Nat.mul_sub]
      have hle : 2 ^ 64 * 1 ≤ 2 ^ 64 * other.mColCount := Nat.mul_le_mul_left _ hpos
      omega
    rw [hprod]
    omega
  rw [hcells', wrap_of_lt (by omega), List.length_drop]
  omega

/-- The row to copy to starts in the data. -/
theorem Owned.target_le (h : Owned m) (hrow : rowOf m row ≤ m.mRowCount) {cols : Nat}
    (hcols : cols = m.mColCount ∨ (row == 0) = true) : rowOf m row * cols ≤ m.data.length := by
  rcases hcols with rfl | hzero
  · exact Nat.le_trans (Nat.mul_le_mul_right _ hrow) h.cells
  · have heq : rowOf m row = 0 := by
      rw [eq_of_beq hzero]
      rfl
    rw [heq, Nat.zero_mul]
    exact Nat.zero_le _

/-- The cells that `copy_at` needs. -/
def request (m : TMatrix α) (row : Int32) (other : TMatrix α) (first last : Nat) : Nat :=
  wrap (rowOf m row * other.mColCount +
    wrap (wrap ((last : Int) - first + 1) * other.mColCount : Nat) : Nat)

variable [Inhabited α]

/-- The rows are there: `copy_at` copies cells. -/
theorem copyAt_eq_rawCopy {other : TMatrix α}
    (hsizes : checkSizes m "copy" other startRow endRow (row == 0) = .rows first last)
    (hrow : rowOf m row ≤ m.mRowCount) (resize : Bool) :
    copyAt mem m row other startRow endRow resize =
      rawCopy mem { m with mColCount := other.mColCount } (rowOf m row)
        (other.data.drop (wrap (first * other.mColCount : Nat)))
        (wrap (wrap ((last : Int) - first + 1) * other.mColCount : Nat)) (resize && row == 0) := by
  simp only [copyAt, hsizes, if_neg (Nat.not_lt.mpr hrow)]

/-- A range that is not reversed: as many cells as its rows have. -/
theorem copyAt_rows
    (hsizes : checkSizes m "copy" other.toTMatrix startRow endRow (row == 0) = .rows first last)
    (hrow : rowOf m row ≤ m.mRowCount) (hle : first ≤ last + 1) (resize : Bool) :
    copyAt mem m row other.toTMatrix startRow endRow resize =
      rawCopy mem { m with mColCount := other.mColCount } (rowOf m row)
        (other.data.drop (first * other.mColCount)) ((last + 1 - first) * other.mColCount)
        (resize && row == 0) := by
  obtain ⟨-, -, -, hlast, -, -⟩ := checkSizes_eq_rows hsizes
  obtain ⟨hstart, hcount, -⟩ := copySource other hlast hle
  rw [copyAt_eq_rawCopy hsizes hrow, hstart, hcount]

/-- A reversed range is a copy of more cells than the other matrix has. -/
theorem copyAt_reversed (hm : Owned m)
    (hsizes : checkSizes m "copy" other.toTMatrix startRow endRow (row == 0) = .rows first last)
    (hrow : rowOf m row ≤ m.mRowCount) (hlt : last + 1 < first)
    (hgranted : Granted mem m (request m row other.toTMatrix first last)) (resize : Bool) :
    copyAt mem m row other.toTMatrix startRow endRow resize = .error .memory := by
  obtain ⟨-, -, hfirst, -, hcols, hchange⟩ := checkSizes_eq_rows hsizes
  have hoff := Nat.lt_of_le_of_lt (hm.target_le hrow hchange) hm.fits
  rw [copyAt_eq_rawCopy hsizes hrow]
  exact rawCopy_outside (m := { m with mColCount := other.mColCount }) hcols hm.fits hoff
    (Or.inl (copySource_reversed other hcols hfirst hlt)) hgranted _

/-- No memory: the columns have been taken over already. -/
theorem copyAt_refused (hm : Owned m)
    (hsizes : checkSizes m "copy" other.toTMatrix startRow endRow (row == 0) = .rows first last)
    (hrow : rowOf m row ≤ m.mRowCount)
    (hgranted : ¬ Granted mem m (request m row other.toTMatrix first last)) (resize : Bool) :
    ∃ text, copyAt mem m row other.toTMatrix startRow endRow resize =
      .ok (false, { m with mColCount := other.mColCount }.setError text) := by
  obtain ⟨-, -, -, -, -, hchange⟩ := checkSizes_eq_rows hsizes
  have hoff := Nat.lt_of_le_of_lt (hm.target_le hrow hchange) hm.fits
  rw [copyAt_eq_rawCopy hsizes hrow]
  exact rawCopy_refused (m := { m with mColCount := other.mColCount }) hoff hgranted _

end CopyAt

/-! ## Rows as `size_t` -/

section Rows

variable {α : Type} {m other : TMatrix α} {row startRow endRow : Int32}

theorem Owned.rowCount_lt (h : Owned m) (hcols : m.mColCount ≠ 0) : m.mRowCount < 2 ^ 64 := by
  have hle : m.mRowCount ≤ m.mRowCount * m.mColCount :=
    Nat.le_mul_of_pos_right _ (Nat.pos_of_ne_zero hcols)
  exact Nat.lt_of_le_of_lt (Nat.le_trans hle h.cells) h.fits

/-- The `size_t` of a row that there is, and of one before the first. -/
theorem rowOf_cases (hrows : m.mRowCount < 2 ^ 64) (i : Int32) :
    (rowOf m i : Int) = m.rowIndex i.toInt ∨
      m.rowIndex i.toInt < 0 ∧ m.mRowCount < rowOf m i := by
  have hlow := i.le_toInt
  have hhigh := i.toInt_lt
  have hneg : i < 0 ↔ i.toInt < 0 := Int32.lt_iff_toInt_lt
  unfold rowOf TMatrix.rowIndex wrap
  by_cases hi : i.toInt < 0
  · rw [if_pos (hneg.mpr hi), if_pos hi]
    omega
  · rw [if_neg (fun h => hi (hneg.mp h)), if_neg hi]
    omega

theorem rowOf_lt_iff (hrows : m.mRowCount < 2 ^ 64) (i : Int32) :
    rowOf m i < m.mRowCount ↔ 0 ≤ m.rowIndex i.toInt ∧ m.rowIndex i.toInt < m.mRowCount := by
  rcases rowOf_cases hrows i with heq | ⟨hneg, hlt⟩ <;> omega

theorem rowOf_le_iff (hrows : m.mRowCount < 2 ^ 64) (i : Int32) :
    rowOf m i ≤ m.mRowCount ↔ 0 ≤ m.rowIndex i.toInt ∧ m.rowIndex i.toInt ≤ m.mRowCount := by
  rcases rowOf_cases hrows i with heq | ⟨hneg, hlt⟩ <;> omega

theorem rowOf_eq (hrows : m.mRowCount < 2 ^ 64) (i : Int32) (h : 0 ≤ m.rowIndex i.toInt) :
    (rowOf m i : Int) = m.rowIndex i.toInt := by
  rcases rowOf_cases hrows i with heq | ⟨hneg, -⟩
  · exact heq
  · omega

end Rows

/-! ## Numbers that do not wrap around -/

section Exact

variable {α : Type} {m other : TMatrix α} {row startRow endRow : Int32}

theorem printed_of_lt {n : Nat} (h : n < 2 ^ 31) : printed n = n := Int32.toInt_ofNat_of_lt h

theorem printed_rowOf (hrows : m.mRowCount < 2 ^ 31) (i : Int32) :
    printed (rowOf m i) = m.rowIndex i.toInt := by
  have hlow := i.le_toInt
  have hhigh := i.toInt_lt
  rw [printed, Int32.toInt_ofNat']
  rcases rowOf_cases (by omega : m.mRowCount < 2 ^ 64) i with heq | ⟨hneg, -⟩
  · rw [heq]
    refine Int.bmod_eq_of_le ?_ ?_
    · unfold TMatrix.rowIndex
      split <;> simp [Int32.size] <;> omega
    · unfold TMatrix.rowIndex
      split <;> simp [Int32.size] <;> omega
  · have hi : i < 0 := by
      refine Int32.lt_iff_toInt_lt.mpr ?_
      unfold TMatrix.rowIndex at hneg
      split at hneg <;> simp <;> omega
    have hi' : i.toInt < 0 := Int32.lt_iff_toInt_lt.mp hi
    rw [TMatrix.rowIndex, if_pos hi'] at hneg
    rw [rowOf, if_pos hi, TMatrix.rowIndex, if_pos hi', wrap]
    simp [Int32.size, Int.bmod]
    omega

/-- The tests find the same rows and give the same texts. -/
theorem checkSizes_eq (hother : other.mRowCount < 2 ^ 31)
    (hcols : other.mColCount < 2 ^ 31) (msg : String) (allow : Bool) :
    checkSizes m msg other startRow endRow allow =
      m.checkSizes msg other startRow.toInt endRow.toInt allow := by
  have hrows : other.mRowCount < 2 ^ 64 := by omega
  have hfirst := rowOf_lt_iff hrows startRow
  have hlast := rowOf_lt_iff hrows endRow
  have htext : ∀ n : Nat, toString (n : Int) = toString n := fun _ => rfl
  simp only [checkSizes, TMatrix.checkSizes, printed_rowOf hother, printed_of_lt hother,
    printed_of_lt hcols, htext, ← hfirst, ← hlast, Nat.not_lt]
  by_cases hstart : other.mRowCount ≤ rowOf other startRow
  · rw [if_pos hstart, if_pos hstart]
  · by_cases hend : other.mRowCount ≤ rowOf other endRow
    · rw [if_neg hstart, if_neg hstart, if_pos hend, if_pos hend]
    · have heq := rowOf_eq hrows startRow (hfirst.mp (by omega)).1
      have heq' := rowOf_eq hrows endRow (hlast.mp (by omega)).1
      rw [if_neg hstart, if_neg hstart, if_neg hend, if_neg hend, ← heq, ← heq',
        Int.toNat_natCast, Int.toNat_natCast]

variable [Inhabited α]

theorem checkAlloc_eq (sizeofT : Nat) (m : TMatrix α) (size : Nat) :
    checkAlloc (.plenty sizeofT) m size = (true, m.checkAlloc size) := by
  have hstorage : (if size < 16 then 16 else size) = max 16 size := by
    split <;> omega
  have hgrants : ∀ n, (Allocator.plenty sizeofT).grants n = true := fun _ => rfl
  unfold checkAlloc TMatrix.checkAlloc reallocate
  simp only [hstorage, hgrants, if_true]
  split
  · rfl
  · split <;> rfl

/-- The copy to a row, where its end does not wrap around. -/
theorem rawCopy_eq (sizeofT : Nat) (m : TMatrix α) {off dataSize : Nat} {source : List α}
    (hcols : m.mColCount ≠ 0) (hsource : dataSize ≤ source.length)
    (hfits : off * m.mColCount + dataSize < 2 ^ 64) (resize : Bool) :
    (rawCopy (.plenty sizeofT) m off source dataSize resize).toOption =
      m.rawCopy off (source.take dataSize) resize := by
  have hlen : (source.take dataSize).length = dataSize := by
    rw [List.length_take]
    omega
  have hloads : loads source 0 dataSize = some (source.take dataSize) := by
    rw [loads, if_pos (by omega), List.drop_zero]
  have hrows : off + dataSize / m.mColCount < 2 ^ 64 := by
    have hoff : off ≤ off * m.mColCount := Nat.le_mul_of_pos_right off (Nat.pos_of_ne_zero hcols)
    have hdiv : dataSize / m.mColCount ≤ dataSize := Nat.div_le_self _ _
    omega
  have hkept : ∀ size, (m.checkAlloc size).mColCount = m.mColCount := by
    intro size
    unfold TMatrix.checkAlloc
    split
    · rfl
    · split <;> rfl
  rw [rawCopy, wrap_of_lt (n := off * m.mColCount) (by omega), wrap_of_lt hfits, checkAlloc_eq,
    TMatrix.rawCopy, hlen]
  simp only [hkept, if_neg hcols, hloads, Option.bind_some]
  cases stores (m.checkAlloc (off * m.mColCount + dataSize)).data (off * m.mColCount)
      (source.take dataSize) with
  | none => rfl
  | some data =>
    simp only [wrap_of_lt hrows, Option.bind_eq_bind, Option.bind_some]
    split <;> rfl

/-- Where no number wraps around and memory is plenty, `copy_at` is the one of
`Core/TMatrix.lean`. -/
theorem copyAt_eq (sizeofT : Nat) (m : TMatrix α) (other : OwnedMatrix α) (hm : Owned m)
    (hrows : m.mRowCount < 2 ^ 31) (hcols : m.mColCount < 2 ^ 31)
    (hrows' : other.mRowCount < 2 ^ 31) (hcols' : other.mColCount < 2 ^ 31)
    (hfits : m.data.length + other.data.length < 2 ^ 64) (resize : Bool) :
    (copyAt (.plenty sizeofT) m row other.toTMatrix startRow endRow resize).toOption =
      m.copyAt row.toInt other.toTMatrix startRow.toInt endRow.toInt resize := by
  have hzero : (row.toInt == 0) = (row == 0) := by
    rw [Bool.eq_iff_iff, beq_iff_eq, beq_iff_eq, ← Int32.toInt_inj]
    rfl
  have hsizes : checkSizes m "copy" other.toTMatrix startRow endRow (row == 0) = _ :=
    checkSizes_eq hrows' hcols' "copy" (row == 0)
  have hrow := rowOf_le_iff (by omega : m.mRowCount < 2 ^ 64) row
  rw [TMatrix.copyAt, hzero]
  cases hfound : m.checkSizes "copy" other.toTMatrix startRow.toInt endRow.toInt (row == 0) with
  | undefined =>
    rw [hfound] at hsizes
    simp only [copyAt, hsizes]
    rfl
  | error text =>
    rw [hfound] at hsizes
    simp only [copyAt, hsizes]
    rfl
  | rows first last =>
    rw [hfound] at hsizes
    obtain ⟨-, -, -, hlast, hsome, hchange⟩ := checkSizes_eq_rows hsizes
    simp only [← hrow]
    by_cases hle : rowOf m row ≤ m.mRowCount
    · rw [if_neg (not_not.mpr hle)]
      by_cases hreversed : last + 1 < first
      · rw [copyAt_reversed hm hsizes hle hreversed (granted_plenty sizeofT _ _), if_pos hreversed]
        rfl
      · obtain ⟨-, -, hsource⟩ := copySource other hlast (by omega : first ≤ last + 1)
        have hindex := rowOf_eq (by omega : m.mRowCount < 2 ^ 64) row (hrow.mp hle).1
        have htarget := hm.target_le hle hchange
        have hend : first * other.mColCount + (last + 1 - first) * other.mColCount ≤
            other.data.length := by
          have hstart : first * other.mColCount ≤ other.data.length :=
            Nat.le_trans (Nat.mul_le_mul_right _ (by omega)) other.owned.cells
          rw [List.length_drop] at hsource
          omega
        have hloads : loads other.data (first * other.mColCount)
            ((last + 1 - first) * other.mColCount) = some ((other.data.drop
              (first * other.mColCount)).take ((last + 1 - first) * other.mColCount)) :=
          if_pos hend
        have hroom : rowOf m row * other.mColCount + (last + 1 - first) * other.mColCount <
            2 ^ 64 := by omega
        rw [copyAt_rows hsizes hle (by omega), if_neg hreversed, hloads, ← hindex,
          Int.toNat_natCast]
        exact rawCopy_eq sizeofT { m with mColCount := other.mColCount } hsome hsource hroom _
    · rw [if_pos hle]
      simp only [copyAt, hsizes, if_pos (Nat.lt_of_not_le hle), printed_of_lt hrows,
        printed_of_lt hcols]
      rfl

end Exact

end Rubyk.TMatrix.SizeT
