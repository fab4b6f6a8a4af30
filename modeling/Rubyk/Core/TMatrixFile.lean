/-
  Core/TMatrixFile.lean --- `to_file` and `from_file` of `src/core/off/tmatrix.cpp`, for an
  `IntMatrix`.

  A matrix is written row by row, each row on a line, with an empty line at the end.  The
  reader has two phases: the first one learns the number of columns from the first line
  and takes the end of that line with it; the second one reads rows, and finds the end of
  a line in front of the next row.  So the empty line is found after a second row only: a
  matrix of one row runs into the one that follows it.

  WHAT IS MODELLED.  The whole of both functions, on the text that is left to read.  The
  loops that read take fuel; `from_file` need not end on a text that is not a matrix.
  The values of type `int` are integers: no number is read that was not written.  The
  results are for an allocator that refuses nothing.
-/
import Rubyk.Lib.CStream
import Rubyk.Core.TMatrixSizes

set_option autoImplicit false

namespace Rubyk.TMatrix.SizeT

open Lib Lib.CStream

/-! ## Writing -/

/-- `to_file`: what is written. -/
def toFile (m : TMatrix Int) (isMatrix : Bool) : Option (List Char) := do
  let rows ← (List.range m.mRowCount).mapM fun i => do
    let values ← (List.range m.mColCount).mapM fun j => m.data[wrap (i * m.mColCount + j : Nat)]?
    some (values.flatMap printInt ++ ['\n'])
  some (rows.flatten ++ if isMatrix then ['\n'] else [])

/-! ## Reading -/

/-- `TMatrix()`. -/
def fresh : TMatrix Int := ⟨[], 0, 0, "no error"⟩

/-- The loop over the first row. -/
def firstRow (mem : Allocator) :
    Nat → TMatrix Int → Stream → Option (Except Fault (TMatrix Int × Stream))
  | 0, _, _ => none
  | fuel + 1, tmp, s =>
      match scanInt s with
      | (.value val, s) =>
          match appendValue mem tmp val with
          | .error e => some (.error e)
          | .ok (_, tmp) =>
              let c := toChar (getc s).1
              if c = some '\n' then some (.ok (tmp, (getc s).2))
              else firstRow mem fuel tmp (ungetc c (getc s).2)
      | (_, s) => some (.ok (tmp, s))

/-- How the loop over a row ends: with the row, or before column `j`. -/
inductive RowEnd where
  | row (data : List Int)
  | matrixEnd (j : Nat)
  | fileEnd (j : Nat)
  deriving DecidableEq, Repr

/-- The loop over the `n` columns that are left, from column `j` on. -/
def readRow : Nat → Nat → List Int → Stream → Except Fault (RowEnd × Stream)
  | 0, _, data, s => .ok (.row data, s)
  | n + 1, j, data, s =>
      let c := toChar (getc s).1
      let next := toChar (getc (getc s).2).1
      if c = some '\n' ∧ next = some '\n' then .ok (.matrixEnd j, (getc (getc s).2).2)
      else
        let s := if c = some '\n' then ungetc next (getc (getc s).2).2 else ungetc c (getc s).2
        match scanInt s with
        | (.eof, s) => .ok (.fileEnd j, s)
        | (.mismatch, s) => readRow n (j + 1) data s
        | (.value val, s) =>
            match store data j val with
            | none => .error .memory
            | some data => readRow n (j + 1) data s

/-- The loop over the rows; `tmp` is the vector that each row is read into. -/
def readRows (mem : Allocator) :
    Nat → TMatrix Int → TMatrix Int → Stream → Option (Except Fault (Bool × TMatrix Int × Stream))
  | 0, _, _, _ => none
  | fuel + 1, m, tmp, s =>
      let row := s!"vector {printed (wrap (m.mRowCount + 1))}"
      match readRow m.mColCount 0 tmp.data s with
      | .error e => some (.error e)
      | .ok (.matrixEnd j, s) =>
          if j = 0 then some (.ok (true, m, s))
          else some (.ok (false, m.setError s!"end of matrix in middle of {row}", s))
      | .ok (.fileEnd j, s) =>
          if j = 0 then some (.ok (true, m, s))
          else some (.ok (false, m.setError s!"end of file in middle of {row}", s))
      | .ok (.row data, s) =>
          match appendMatrix mem m { tmp with data := data } 0 (-1) with
          | .error e => some (.error e)
          | .ok (false, m) => some (.ok (false, m.setError s!"could not append {row}", s))
          | .ok (true, m) => readRows mem fuel m { tmp with data := data } s

/-- The loop over the cells of a matrix whose sizes are known. -/
def fillCells : List (Nat × Nat) → TMatrix Int → Stream →
    Except Fault (Bool × TMatrix Int × Stream)
  | [], m, s => .ok (true, m, s)
  | (i, j) :: cells, m, s =>
      let sizes := s!"{printed m.mRowCount}x{printed m.mColCount}"
      match scanInt s with
      | (.eof, s) =>
          let row := printed (i + 1)
          let col := printed (j + 1)
          .ok (false, m.setError
            s!"end of file while reading value {row},{col} out of {sizes}", s)
      | (.mismatch, s) => fillCells cells m (s.dropWhile isSpace)
      | (.value val, s) =>
          match store m.data (wrap (i * m.mColCount + j : Nat)) val with
          | none => .error .memory
          | some data => fillCells cells { m with data := data } (s.dropWhile isSpace)

/-- The second phase of `from_file`. -/
def readRest (mem : Allocator) (fuel : Nat) (readAll : Bool) (start : Nat) (m : TMatrix Int)
    (s : Stream) : Option (Except Fault (Bool × TMatrix Int × Stream)) :=
  if readAll then
    match setSizes mem fresh 1 m.mColCount with
    | (false, tmp) => some (.ok (false, m.setError s!"tmp ({tmp.mErrorMsg})", s))
    | (true, tmp) => readRows mem fuel m tmp s
  else
    let cells := (List.range' start (m.mRowCount - start)).flatMap fun i =>
      (List.range m.mColCount).map fun j => (i, j)
    some (fillCells cells m s)

/-- `from_file`. -/
def fromFile (mem : Allocator) (fuel : Nat) (m : TMatrix Int) (s : Stream) :
    Option (Except Fault (Bool × TMatrix Int × Stream)) :=
  let readAll := m.mRowCount == 0
  if m.mColCount = 0 then
    match firstRow mem fuel (setSizes mem fresh 0 0).2 s with
    | none => none
    | some (.error e) => some (.error e)
    | some (.ok (tmp, s)) =>
        match copy mem m tmp 0 (-1) with
        | .error e => some (.error e)
        | .ok (false, m) => some (.ok (false, m, s))
        | .ok (true, m) =>
            readRest mem fuel readAll 1
              { m with mColCount := wrap (m.mRowCount * m.mColCount : Nat), mRowCount := 1 } s
  else readRest mem fuel readAll 0 m s

/-! ## What is written -/

/-- The values of row `i`. -/
def rowCells (m : TMatrix Int) (i : Nat) : List Int :=
  (m.data.drop (i * m.mColCount)).take m.mColCount

/-- The values of all rows. -/
def allRows (m : TMatrix Int) : List (List Int) := (List.range m.mRowCount).map (rowCells m)

/-- A line. -/
def rowText (xs : List Int) : List Char := xs.flatMap printInt ++ ['\n']

/-- A matrix, with the empty line. -/
def matrixText (m : TMatrix Int) : List Char := (allRows m).flatMap rowText ++ ['\n']

section Written

variable {M : OwnedMatrix Int} {i : Nat}

theorem length_rowCells (hi : i < M.mRowCount) :
    (rowCells M.toTMatrix i).length = M.mColCount := by
  have hcells := M.owned.cells
  have hend : (i + 1) * M.mColCount ≤ M.mRowCount * M.mColCount := Nat.mul_le_mul_right _ hi
  rw [Nat.succ_mul] at hend
  rw [rowCells, List.length_take, List.length_drop]
  omega

theorem length_of_mem_allRows {xs : List Int} (h : xs ∈ allRows M.toTMatrix) :
    xs.length = M.mColCount := by
  obtain ⟨i, hi, rfl⟩ := List.mem_map.mp h
  exact length_rowCells (List.mem_range.mp hi)

theorem flatten_rowCells (m : TMatrix Int) (n : Nat) :
    ((List.range n).map (rowCells m)).flatten = m.data.take (n * m.mColCount) := by
  induction n with
  | zero => rw [Nat.zero_mul, List.take_zero, List.range_zero, List.map_nil, List.flatten_nil]
  | succ n ih =>
    rw [List.range_succ, List.map_append, List.flatten_append, ih, List.map_singleton,
      List.flatten_singleton, Nat.succ_mul, List.take_add, rowCells]

theorem mapM_rowCells (hi : i < M.mRowCount) :
    (List.range M.mColCount).mapM (fun j => M.data[wrap (i * M.mColCount + j : Nat)]?) =
      some (rowCells M.toTMatrix i) := by
  have hcells := M.owned.cells
  have hfits := M.owned.fits
  have hread : ∀ j ∈ List.range M.mColCount, M.data[wrap (i * M.mColCount + j : Nat)]? =
      some ((M.data[i * M.mColCount + j]?).getD 0) := by
    intro j hj
    have hlt : i * M.mColCount + j < M.mRowCount * M.mColCount :=
      rowMajor_lt hi (List.mem_range.mp hj)
    rw [wrap_of_lt (by omega), List.getElem?_eq_getElem (by omega), Option.getD_some]
  rw [mapM_eq_some hread]
  congr 1
  refine List.ext_getElem? fun j => ?_
  rw [rowCells, List.getElem?_map]
  rcases Nat.lt_or_ge j M.mColCount with hj | hj
  · have hlt : i * M.mColCount + j < M.mRowCount * M.mColCount := rowMajor_lt hi hj
    rw [List.getElem?_range hj, List.getElem?_take_of_lt hj, List.getElem?_drop, Option.map_some,
      List.getElem?_eq_getElem (by omega), Option.getD_some]
  · rw [List.getElem?_eq_none (by rwa [List.length_range]),
      List.getElem?_eq_none (by rw [List.length_take]; omega), Option.map_none]

/-- A matrix that owns its cells can be written. -/
theorem toFile_eq (M : OwnedMatrix Int) :
    toFile M.toTMatrix true = some (matrixText M.toTMatrix) := by
  have hrows : (List.range M.mRowCount).mapM (fun i => do
      let values ← (List.range M.mColCount).mapM fun j =>
        M.data[wrap (i * M.mColCount + j : Nat)]?
      some (values.flatMap printInt ++ ['\n'])) =
        some ((List.range M.mRowCount).map fun i => rowText (rowCells M.toTMatrix i)) := by
    refine mapM_eq_some fun i hi => ?_
    rw [mapM_rowCells (List.mem_range.mp hi)]
    rfl
  rw [toFile, hrows, matrixText, allRows, List.flatMap_map, List.flatMap_def]
  rfl

end Written

/-! ## The first row -/

section FirstRow

variable {m : TMatrix Int} {x : Int} {xs ys : List Int} {t : Stream}

/-- The matrix is a vector of these values. -/
structure HoldsVector (m : TMatrix Int) (xs : List Int) : Prop where
  rowCount : m.mRowCount ≤ 1
  colCount : m.mColCount = xs.length
  cells : ∀ k < xs.length, m.data[k]? = xs[k]?
  fits : m.data.length < 2 ^ 64

theorem HoldsVector.length_le (h : HoldsVector m xs) : xs.length ≤ m.data.length := by
  by_contra hshort
  have hread := h.cells m.data.length (by omega)
  rw [List.getElem?_eq_none (Nat.le_refl _), List.getElem?_eq_getElem (by omega)] at hread
  cases hread

theorem appendValue_holds (sizeofT : Nat) (h : HoldsVector m xs) (hfits : xs.length + 1 < 2 ^ 64)
    (x : Int) :
    ∃ m', appendValue (.plenty sizeofT) m x = .ok (true, m') ∧ HoldsVector m' (xs ++ [x]) ∧
      m'.mRowCount = 1 := by
  have hprefix := h.length_le
  obtain ⟨hrows, hcols, hcells, hlt⟩ := h
  obtain ⟨data, halloc, hlen, hold⟩ := checkAlloc_granted
    (granted_plenty sizeofT { m with mRowCount := 1 } (xs.length + 1))
  have hroom : xs.length + 1 ≤ data.length := hlen ▸ size_le_grown _ _
  obtain ⟨written, hstore, hwritten, hnew⟩ := store_spec (by omega : xs.length < data.length) x
  have hwrap : wrap ((xs.length : Int) + 1) = xs.length + 1 := wrap_of_lt hfits
  refine ⟨{ m with data := written, mRowCount := 1, mColCount := xs.length + 1 }, ?_,
    ⟨Nat.le_refl 1, by simp, fun k hk => ?_, ?_⟩, rfl⟩
  · have hcount : wrap ((m.mColCount : Int) + 1) = xs.length + 1 := by rw [hcols, hwrap]
    rw [appendValue, if_neg (by omega), hcount, halloc]
    simp only [hcols, hstore, hwrap]
  · rw [List.length_append, List.length_singleton] at hk
    simp only [hnew]
    split
    · next heq => rw [heq, List.getElem?_concat_length]
    · next hne =>
      have hlt : k < xs.length := by omega
      rw [hold k (Nat.lt_of_lt_of_le hlt hprefix), hcells k hlt, List.getElem?_append_left hlt]
  · simp only [hwritten, hlen]
    exact grown_lt hlt hfits

/-- The values of a row end before a blank or the end of the line. -/
theorem ends_values (xs : List Int) : Ends (xs.flatMap printInt ++ '\n' :: t) := by
  cases xs with
  | nil =>
    intro c hc
    cases hc
    rfl
  | cons x xs =>
    obtain ⟨text, htext⟩ := exists_printInt x
    intro c hc
    rw [List.flatMap_cons, htext] at hc
    cases hc
    rfl

theorem toChar_blank : ¬ toChar (some ' ') = some '\n' := by decide

/-- The first row is read with the end of its line. -/
theorem firstRow_values (sizeofT : Nat) (h : HoldsVector m ys)
    (hfits : ys.length + (x :: xs).length < 2 ^ 64) (t : Stream) :
    ∃ m', HoldsVector m' (ys ++ x :: xs) ∧ m'.mRowCount = 1 ∧ ∀ fuel,
      firstRow (.plenty sizeofT) fuel m ((x :: xs).flatMap printInt ++ '\n' :: t) =
        if fuel < (x :: xs).length then none else some (.ok (m', t)) := by
  induction xs generalizing m ys x with
  | nil =>
    obtain ⟨m', happend, hholds, hone⟩ := appendValue_holds sizeofT h hfits x
    refine ⟨m', hholds, hone, fun fuel => ?_⟩
    cases fuel with
    | zero => rfl
    | succ fuel =>
      have hscan : scanInt ([x].flatMap printInt ++ '\n' :: t) = (.value x, '\n' :: t) := by
        rw [List.flatMap_singleton]
        exact scanInt_printInt x (ends_values [])
      rw [if_neg (by simp), firstRow, hscan]
      simp only [happend]
      exact if_pos rfl
  | cons y xs ih =>
    have hlen : (x :: y :: xs).length = (y :: xs).length + 1 := rfl
    have hone' : 1 ≤ (y :: xs).length := Nat.succ_le_succ (Nat.zero_le _)
    obtain ⟨m₁, happend, hholds, -⟩ := appendValue_holds sizeofT h (by omega) x
    have hfits' : (ys ++ [x]).length + (y :: xs).length < 2 ^ 64 := by
      rw [List.length_append, List.length_singleton]
      omega
    obtain ⟨m', hholds', hone, hread⟩ := ih hholds hfits'
    refine ⟨m', ?_, hone, fun fuel => ?_⟩
    · rwa [List.append_assoc, List.singleton_append] at hholds'
    · cases fuel with
      | zero => rfl
      | succ fuel =>
        obtain ⟨text, htext⟩ := exists_printInt y
        have hscan : scanInt ((x :: y :: xs).flatMap printInt ++ '\n' :: t) =
            (.value x, (y :: xs).flatMap printInt ++ '\n' :: t) := by
          rw [List.flatMap_cons, List.append_assoc]
          exact scanInt_printInt x (ends_values (y :: xs))
        have hblank : ∃ s, (y :: xs).flatMap printInt ++ '\n' :: t = ' ' :: s := by
          rw [List.flatMap_cons, htext]
          exact ⟨_, rfl⟩
        obtain ⟨s, hs⟩ := hblank
        have hstep : firstRow (.plenty sizeofT) (fuel + 1) m
            ((x :: y :: xs).flatMap printInt ++ '\n' :: t) =
              firstRow (.plenty sizeofT) fuel m₁ ((y :: xs).flatMap printInt ++ '\n' :: t) := by
          rw [firstRow, hscan]
          simp only [happend, hs]
          exact if_neg toChar_blank
        have hfuel : fuel + 1 < (x :: y :: xs).length ↔ fuel < (y :: xs).length := by omega
        rw [hstep, hread]
        simp only [hfuel]

end FirstRow

/-! ## Rows -/

section Rows

variable {α : Type} [Inhabited α] {mem : Allocator} {m : TMatrix α} {row : Int32}

/-- A copy from a matrix of one row. -/
theorem copyAt_oneRow (other : OwnedMatrix α) (hone : other.mRowCount = 1)
    (hne : other.mColCount ≠ 0) (hcols : other.mColCount = m.mColCount ∨ (row == 0) = true)
    (hrow : rowOf m row ≤ m.mRowCount) (resize : Bool) :
    copyAt mem m row other.toTMatrix 0 (-1) resize =
      rawCopy mem { m with mColCount := other.mColCount } (rowOf m row) other.data
        other.mColCount (resize && row == 0) := by
  have hstart : rowOf other.toTMatrix 0 = 0 := rfl
  have hend : rowOf other.toTMatrix (-1) = 0 := by
    rw [rowOf, hone]
    rfl
  have hsizes : checkSizes m "copy" other.toTMatrix 0 (-1) (row == 0) = .rows 0 0 := by
    simp only [checkSizes, hstart, hend, hone]
    rw [if_neg (by decide), if_neg (by decide), if_neg, if_neg hne]
    rintro ⟨hchange, hallow⟩
    rcases hcols with heq | htrue
    · exact hchange heq
    · rw [hallow] at htrue
      cases htrue
  rw [copyAt_rows hsizes hrow (Nat.zero_le _), Nat.zero_mul, List.drop_zero, Nat.zero_add,
    Nat.sub_zero, Nat.one_mul]

omit [Inhabited α] in
/-- The row to append at: the row count as an `int`, which is negative from 2^31 on. -/
theorem rowOf_ofNat (h : m.mRowCount ≤ 2 ^ 31) :
    rowOf m (Int32.ofNat m.mRowCount) = if m.mRowCount < 2 ^ 31 then m.mRowCount else 0 := by
  rcases Nat.lt_or_eq_of_le h with hlt | heq
  · have hint : (Int32.ofNat m.mRowCount).toInt = m.mRowCount := Int32.toInt_ofNat_of_lt hlt
    have hneg : ¬ Int32.ofNat m.mRowCount < 0 := fun h' => by
      have hlt' := Int32.lt_iff_toInt_lt.mp h'
      rw [hint] at hlt'
      exact absurd hlt' (by simp)
    rw [rowOf, if_neg hneg, hint, if_pos hlt, Int.toNat_natCast]
  · rw [if_neg (by omega), rowOf, heq]
    rfl

end Rows

/-- A matrix with these rows. -/
structure HoldsRows (m : TMatrix Int) (cols : Nat) (xss : List (List Int)) : Prop where
  rowCount : m.mRowCount = xss.length
  colCount : m.mColCount = cols
  width : ∀ xs ∈ xss, xs.length = cols
  cells : ∀ k < xss.length * cols, m.data[k]? = xss.flatten[k]?
  fits : m.data.length < 2 ^ 64

/-- The vector that the rows are read into. -/
def rowVector (xs : List Int) : TMatrix Int := ⟨xs, 1, xs.length, "no error"⟩

theorem owned_rowVector {xs : List Int} (h : xs.length < 2 ^ 64) : Owned (rowVector xs) :=
  ⟨Nat.le_of_eq (Nat.one_mul _), h⟩

section Phases

variable {m m' : TMatrix Int} {cols n j sizeofT : Nat} {x : Int} {xs ys data : List Int}
  {xss yss : List (List Int)} {s s' t rest : Stream}

theorem length_flatten_of_width (h : ∀ xs ∈ xss, xs.length = cols) :
    xss.flatten.length = xss.length * cols := by
  induction xss with
  | nil => rw [List.flatten_nil, List.length_nil, List.length_nil, Nat.zero_mul]
  | cons xs xss ih =>
    rw [List.flatten_cons, List.length_append, h xs List.mem_cons_self,
      ih fun ys hys => h ys (List.mem_cons_of_mem xs hys), List.length_cons, Nat.succ_mul,
      Nat.add_comm]

/-- The first row is copied to the new matrix. -/
theorem copy_vector (sizeofT : Nat) (h : HoldsVector m xs) (hone : m.mRowCount = 1)
    (hne : xs ≠ []) :
    ∃ data, copy (.plenty sizeofT) fresh m 0 (-1) =
        .ok (true, ⟨data, 1, xs.length, "no error"⟩) ∧
      (∀ k < xs.length, data[k]? = xs[k]?) ∧ data.length < 2 ^ 64 := by
  have hlen := h.length_le
  obtain ⟨-, hcols, hcells, hlt⟩ := h
  have hpos : xs.length ≠ 0 := mt List.length_eq_zero_iff.mp hne
  have hfits : 0 * xs.length + xs.length < 2 ^ 64 := by omega
  have howned : Owned m := ⟨by rw [hone, hcols, Nat.one_mul]; exact hlen, hlt⟩
  obtain ⟨data, hraw, hlength, hnew, -⟩ := rawCopy_granted
    (m := { fresh with mColCount := xs.length }) hpos hlen hfits (granted_plenty sizeofT _ _) true
  have hrow : rowOf fresh 0 ≤ fresh.mRowCount := Nat.le_refl 0
  have hcopy : copy (.plenty sizeofT) fresh m 0 (-1) = _ :=
    copyAt_oneRow ⟨m, howned⟩ hone (by rwa [hcols]) (Or.inr rfl) hrow true
  have hrows : rowsAfter { fresh with mColCount := xs.length } 0 xs.length true = 1 := by
    rw [rowsAfter, if_pos (Or.inr rfl), Nat.zero_add, Nat.div_self (Nat.pos_of_ne_zero hpos)]
  refine ⟨data, ?_, fun k hk => ?_, ?_⟩
  · rw [hrows] at hraw
    rw [hcopy]
    simp only [hcols]
    exact hraw
  · have hcell := hnew k hk
    rw [Nat.zero_mul, Nat.zero_add] at hcell
    rw [← hcells k hk]
    exact hcell
  · rw [hlength]
    exact grown_lt (Nat.two_pow_pos 64) hfits

/-- The first phase: the first row is the matrix. -/
theorem fromFile_firstRow (sizeofT : Nat) (hne : xs ≠ []) (hfits : xs.length < 2 ^ 64)
    (t : Stream) :
    ∃ m, HoldsRows m xs.length [xs] ∧ ∀ fuel,
      fromFile (.plenty sizeofT) fuel fresh (rowText xs ++ t) =
        if fuel < xs.length then none
        else readRows (.plenty sizeofT) fuel m (rowVector (List.replicate xs.length 0)) t := by
  have hnew : HoldsVector fresh [] :=
    ⟨Nat.zero_le _, rfl, fun k hk => absurd hk (Nat.not_lt_zero k), by decide⟩
  have htext : ∃ x ys, xs = x :: ys := List.exists_cons_of_ne_nil hne
  obtain ⟨x, ys, heq⟩ := htext
  obtain ⟨tmp, hholds, hone, hread⟩ := firstRow_values (x := x) sizeofT hnew
    (by rwa [List.length_nil, Nat.zero_add, ← heq] : [].length + (x :: ys).length < 2 ^ 64) t
  rw [List.nil_append, ← heq] at hholds
  rw [← heq] at hread
  obtain ⟨data, hcopy, hcells, hlt⟩ := copy_vector sizeofT hholds hone hne
  have hsize : wrap (1 * xs.length : Nat) = xs.length := by
    rw [Nat.one_mul]
    exact wrap_of_lt hfits
  have hvector : setSizes (.plenty sizeofT) fresh 1 xs.length =
      (true, rowVector (List.replicate xs.length 0)) := by
    have hgrants : (Allocator.plenty sizeofT).grants xs.length = true := rfl
    have hnew : fresh.reallocate xs.length = ⟨List.replicate xs.length 0, 0, 0, "no error"⟩ := by
      rw [TMatrix.reallocate, fresh, List.take_nil, List.nil_append]
      rfl
    rw [setSizes, hsize, rowVector, List.length_replicate, reallocate, if_pos hgrants, hnew]
  refine ⟨⟨data, 1, xs.length, "no error"⟩, ⟨rfl, rfl, by simp, fun k hk => ?_, hlt⟩,
    fun fuel => ?_⟩
  · rw [List.length_singleton, Nat.one_mul] at hk
    rw [List.flatten_singleton]
    exact hcells k hk
  · have hstart : (setSizes (.plenty sizeofT) fresh 0 0).2 = fresh := rfl
    have hzero : fresh.mColCount = 0 := rfl
    rw [fromFile, if_pos hzero, rowText, List.append_assoc, List.singleton_append, hstart, hread]
    by_cases hfuel : fuel < xs.length
    · rw [if_pos hfuel, if_pos hfuel]
    · rw [if_neg hfuel, if_neg hfuel]
      have hall : (fresh.mRowCount == 0) = true := rfl
      simp only [hcopy, hsize]
      rw [readRest, if_pos hall]
      simp only [hvector]

/-- A row is read up to the end of its line. -/
theorem readRow_values (xs : List Int) (hlen : data.length = ys.length) :
    readRow ys.length xs.length (xs ++ data) (ys.flatMap printInt ++ '\n' :: t) =
      .ok (.row (xs ++ ys), '\n' :: t) := by
  induction ys generalizing xs data with
  | nil =>
    obtain rfl := List.eq_nil_of_length_eq_zero hlen
    rfl
  | cons y ys ih =>
    obtain ⟨old, data, rfl⟩ := List.exists_cons_of_length_eq_add_one hlen
    obtain ⟨text, htext⟩ := exists_printInt y
    have hscan : scanInt ((y :: ys).flatMap printInt ++ '\n' :: t) =
        (.value y, ys.flatMap printInt ++ '\n' :: t) := by
      rw [List.flatMap_cons, List.append_assoc]
      exact scanInt_printInt y (ends_values ys)
    have hstore : store (xs ++ old :: data) xs.length y = some (xs ++ [y] ++ data) := by
      rw [store, if_pos (by simp), List.set_append_right _ _ (Nat.le_refl _), Nat.sub_self,
        List.set_cons_zero, List.append_assoc, List.singleton_append]
    have hrest := ih (xs ++ [y]) (Nat.succ_inj.mp hlen)
    rw [List.length_append, List.length_singleton, List.append_assoc xs [y] ys,
      List.singleton_append] at hrest
    have hblank : ∃ s, (y :: ys).flatMap printInt ++ '\n' :: t = ' ' :: s := by
      rw [List.flatMap_cons, htext]
      exact ⟨_, rfl⟩
    obtain ⟨s, hs⟩ := hblank
    rw [hs] at hscan ⊢
    rw [List.length_cons, readRow]
    have hc : toChar (getc (' ' :: s)).1 = some ' ' := rfl
    simp only [hc]
    rw [if_neg (by simp), if_neg (by simp)]
    simp only [ungetc, getc, hscan, hstore]
    exact hrest

/-- The end of a line, in front of a row. -/
theorem readRow_newline (s : Stream) :
    readRow n j data ('\n' :: ' ' :: s) =
      if n = 0 then .ok (.row data, '\n' :: ' ' :: s) else readRow n j data (' ' :: s) := by
  cases n with
  | zero => rfl
  | succ n => rfl

/-- The row to append. -/
theorem appendMatrix_rowVector (sizeofT : Nat) (hcols : m.mColCount = xs.length) (hne : xs ≠ [])
    (hfits : xs.length < 2 ^ 64) (hrows : m.mRowCount ≤ 2 ^ 31) :
    appendMatrix (.plenty sizeofT) m (rowVector xs) 0 (-1) =
      rawCopy (.plenty sizeofT) m (if m.mRowCount < 2 ^ 31 then m.mRowCount else 0) xs xs.length
        false := by
  have hrow := rowOf_ofNat hrows
  have hle : rowOf m (Int32.ofNat m.mRowCount) ≤ m.mRowCount := by
    rw [hrow]
    split <;> omega
  have hcopy : appendMatrix (.plenty sizeofT) m (rowVector xs) 0 (-1) = _ :=
    copyAt_oneRow ⟨rowVector xs, owned_rowVector hfits⟩ rfl (mt List.length_eq_zero_iff.mp hne)
      (Or.inl hcols.symm) hle false
  have hsame : { m with mColCount := xs.length } = m := by rw [← hcols]
  rw [hcopy, hrow]
  exact congrArg (rawCopy _ · _ xs xs.length false) hsame

/-- Below 2^31 rows, the row goes to the end. -/
theorem appendMatrix_holds (sizeofT : Nat) (h : HoldsRows m cols yss) (hlen : xs.length = cols)
    (hne : xs ≠ []) (hrows : yss.length < 2 ^ 31) (hfits : (yss.length + 1) * cols < 2 ^ 64) :
    ∃ m', appendMatrix (.plenty sizeofT) m (rowVector xs) 0 (-1) = .ok (true, m') ∧
      HoldsRows m' cols (yss ++ [xs]) := by
  obtain ⟨hcount, hcols, hwidth, hcells, hlt⟩ := h
  subst hlen
  have hpos : 0 < xs.length := List.length_pos_iff.mpr hne
  have hflat := length_flatten_of_width hwidth
  have hend : yss.length * xs.length + xs.length < 2 ^ 64 := by rwa [← Nat.succ_mul]
  have hin : yss.length * xs.length ≤ m.data.length := by
    by_contra hshort
    have hread := hcells m.data.length (by omega)
    rw [List.getElem?_eq_none (Nat.le_refl _), List.getElem?_eq_getElem (by omega)] at hread
    cases hread
  have happend := appendMatrix_rowVector (m := m) sizeofT hcols hne (by omega) (by omega)
  rw [hcount, if_pos hrows] at happend
  obtain ⟨data, hraw, hlength, hnew, hold⟩ := rawCopy_granted (m := m)
    (by rw [hcols]; omega) (Nat.le_refl xs.length) (by rwa [hcols])
    (granted_plenty sizeofT m (yss.length * m.mColCount + xs.length)) false
  rw [hcols] at hlength hnew hold
  refine ⟨_, happend.trans hraw, ?_, hcols, ?_, fun k hk => ?_, ?_⟩
  · simp only [rowsAfter, hcols, Nat.div_self hpos, hcount, List.length_append,
      List.length_singleton]
    rw [if_pos (Or.inl (Nat.lt_succ_self _))]
  · intro row hrow
    rw [List.mem_append, List.mem_singleton] at hrow
    rcases hrow with hmem | rfl
    · exact hwidth row hmem
    · rfl
  · rw [List.length_append, List.length_singleton, Nat.succ_mul] at hk
    rw [List.flatten_append, List.flatten_singleton]
    rcases Nat.lt_or_ge k (yss.length * xs.length) with hlow | hhigh
    · rw [List.getElem?_append_left (by omega), ← hcells k hlow]
      exact hold k (by omega) (Or.inl hlow)
    · obtain ⟨l, rfl⟩ := Nat.exists_eq_add_of_le hhigh
      rw [List.getElem?_append_right (by omega), hflat, Nat.add_sub_cancel_left]
      exact hnew l (by omega)
  · simp only [hlength]
    exact grown_lt hlt hend

/-- One row more is read, with the end of the line in front of it. -/
theorem readRows_row (sizeofT : Nat) (h : HoldsRows m cols yss) (hlen : xs.length = cols)
    (hne : xs ≠ []) (hrows : yss.length < 2 ^ 31) (hfits : (yss.length + 1) * cols < 2 ^ 64)
    (hdata : data.length = cols) (hs : s = [] ∨ s = ['\n']) (t : Stream) :
    ∃ m', HoldsRows m' cols (yss ++ [xs]) ∧ ∀ fuel,
      readRows (.plenty sizeofT) (fuel + 1) m (rowVector data) (s ++ (rowText xs ++ t)) =
        readRows (.plenty sizeofT) fuel m' (rowVector xs) ('\n' :: t) := by
  obtain ⟨m', happend, hholds⟩ := appendMatrix_holds sizeofT h hlen hne hrows hfits
  refine ⟨m', hholds, fun fuel => ?_⟩
  obtain ⟨x, xs', hcons⟩ := List.exists_cons_of_ne_nil hne
  obtain ⟨text, htext⟩ := exists_printInt x
  have hvalues : readRow xs.length 0 data (rowText xs ++ t) = .ok (.row xs, '\n' :: t) := by
    rw [rowText, List.append_assoc, List.singleton_append]
    exact readRow_values [] (hdata.trans hlen.symm)
  have hread : readRow m.mColCount 0 data (s ++ (rowText xs ++ t)) = .ok (.row xs, '\n' :: t) := by
    rw [h.colCount, ← hlen]
    rcases hs with rfl | rfl
    · exact hvalues
    · have hblank : rowText xs ++ t = ' ' :: (text ++ xs'.flatMap printInt ++ ['\n'] ++ t) := by
        rw [rowText, hcons, List.flatMap_cons, htext]
        rfl
      rw [hblank] at hvalues ⊢
      rw [List.singleton_append, readRow_newline, if_neg (mt List.length_eq_zero_iff.mp hne)]
      exact hvalues
  have hvector : { rowVector data with data := xs } = rowVector xs := by
    rw [rowVector, rowVector, hdata, hlen]
  rw [readRows]
  simp only [show (rowVector data).data = data from rfl, hread, hvector, happend]

/-- All rows are read, and the empty line after them. -/
theorem readRows_rows (sizeofT : Nat) (h : HoldsRows m cols yss) (hcols : cols ≠ 0)
    (hwidth : ∀ xs ∈ xss, xs.length = cols) (hrows : yss.length + xss.length ≤ 2 ^ 31)
    (hfits : (yss.length + xss.length) * cols < 2 ^ 64) (hdata : data.length = cols)
    (rest : Stream) :
    ∃ m', HoldsRows m' cols (yss ++ xss) ∧ ∀ fuel > xss.length,
      readRows (.plenty sizeofT) fuel m (rowVector data)
        ('\n' :: (xss.flatMap rowText ++ '\n' :: rest)) = some (.ok (true, m', rest)) := by
  induction xss generalizing m yss data with
  | nil =>
    refine ⟨m, by rwa [List.append_nil], fun fuel hfuel => ?_⟩
    obtain ⟨n, hn⟩ := Nat.exists_eq_succ_of_ne_zero hcols
    obtain ⟨fuel, rfl⟩ := Nat.exists_eq_succ_of_ne_zero (Nat.ne_of_gt hfuel)
    rw [readRows, h.colCount, hn]
    rfl
  | cons xs xss ih =>
    have hlen := hwidth xs List.mem_cons_self
    have hne : xs ≠ [] := by
      rintro rfl
      exact hcols hlen.symm
    rw [List.length_cons] at hrows hfits
    have hnext : (yss.length + 1) * cols ≤ (yss.length + (xss.length + 1)) * cols :=
      Nat.mul_le_mul_right _ (by omega)
    obtain ⟨m₁, hholds, hread⟩ := readRows_row sizeofT h hlen hne (by omega)
      (Nat.lt_of_le_of_lt hnext hfits) hdata (Or.inr rfl) (xss.flatMap rowText ++ '\n' :: rest)
    have hlength : (yss ++ [xs]).length = yss.length + 1 := by
      rw [List.length_append, List.length_singleton]
    obtain ⟨m', hall, hrun⟩ := ih hholds (fun ys hys => hwidth ys (List.mem_cons_of_mem xs hys))
      (by omega) (by rwa [hlength, Nat.add_assoc, Nat.add_comm 1]) hlen
    rw [List.append_assoc, List.singleton_append] at hall
    refine ⟨m', hall, fun fuel hfuel => ?_⟩
    rw [List.length_cons] at hfuel
    obtain ⟨fuel, rfl⟩ := Nat.exists_eq_succ_of_ne_zero (by omega : fuel ≠ 0)
    rw [← hrun fuel (by omega), ← hread fuel, List.flatMap_cons, List.append_assoc]
    rfl

/-! ## More rows than were written -/

/-- What a loop from column `j` on ends with. -/
def RowEnd.From (j size : Nat) : RowEnd → Prop
  | .row xs => xs.length = size
  | .matrixEnd k => j ≤ k
  | .fileEnd k => j ≤ k

theorem RowEnd.From.pred {e : RowEnd} {size : Nat} (h : e.From (j + 1) size) : e.From j size := by
  cases e with
  | row xs => exact h
  | matrixEnd k => exact Nat.le_of_succ_le h
  | fileEnd k => exact Nat.le_of_succ_le h

theorem readRow_from {e : RowEnd} (h : readRow n j data s = .ok (e, s')) :
    e.From j data.length := by
  induction n generalizing j data s with
  | zero =>
    cases h
    rfl
  | succ n ih =>
    simp only [readRow] at h
    split at h
    · cases h
      exact Nat.le_refl j
    · split at h
      · cases h
        exact Nat.le_refl j
      · exact (ih h).pred
      · next val s₁ _ =>
        by_cases hj : j < data.length
        · rw [store, if_pos hj] at h
          have hfrom := (ih h).pred
          rwa [List.length_set] at hfrom
        · rw [store, if_neg hj] at h
          cases h

/-- An `append` counts a row, but not from 2^31 rows on. -/
theorem appendMatrix_rowCount (hcols : m.mColCount = xs.length) (hne : xs ≠ [])
    (hfits : xs.length < 2 ^ 64) (hrows : m.mRowCount ≤ 2 ^ 31)
    (h : appendMatrix (.plenty sizeofT) m (rowVector xs) 0 (-1) = .ok (true, m')) :
    m'.mColCount = m.mColCount ∧
      m'.mRowCount = max m.mRowCount ((if m.mRowCount < 2 ^ 31 then m.mRowCount else 0) + 1) := by
  rw [appendMatrix_rowVector sizeofT hcols hne hfits hrows] at h
  obtain ⟨off, hoff⟩ : ∃ off, off = if m.mRowCount < 2 ^ 31 then m.mRowCount else 0 := ⟨_, rfl⟩
  have hle : off ≤ 2 ^ 31 := by
    rw [hoff]
    split <;> omega
  have hpos : 0 < xs.length := List.length_pos_iff.mpr hne
  have hzero : m.mColCount ≠ 0 := by omega
  have hwrap : wrap (off + xs.length / m.mColCount : Nat) = off + 1 := by
    rw [hcols, Nat.div_self hpos]
    exact wrap_of_lt (by omega)
  obtain ⟨data, halloc, -, -⟩ := checkAlloc_granted (granted_plenty sizeofT m
    (wrap (wrap (off * m.mColCount : Nat) + xs.length : Nat)))
  rw [← hoff] at h ⊢
  rw [rawCopy, halloc] at h
  simp only [if_neg hzero, hwrap, Bool.false_eq_true, or_false] at h
  split at h
  · cases h
  · split at h
    · next hlt =>
      cases h
      exact ⟨rfl, (Nat.max_eq_right (Nat.le_of_lt hlt)).symm⟩
    · next hge =>
      cases h
      exact ⟨rfl, (Nat.max_eq_left (Nat.le_of_not_lt hge)).symm⟩

/-- Whatever is read, there are rows already, and no more than 2^31. -/
theorem readRows_rowCount {fuel : Nat} (hcols : m.mColCount = data.length) (hne : data ≠ [])
    (hfits : data.length < 2 ^ 64) (hrows : m.mRowCount ≤ 2 ^ 31)
    (h : readRows (.plenty sizeofT) fuel m (rowVector data) s = some (.ok (true, m', s'))) :
    m.mRowCount ≤ m'.mRowCount ∧ m'.mRowCount ≤ 2 ^ 31 := by
  induction fuel generalizing m data s with
  | zero => cases h
  | succ fuel ih =>
    simp only [readRows] at h
    split at h
    · cases h
    · split at h
      · cases h
        exact ⟨Nat.le_refl _, hrows⟩
      · cases h
    · split at h
      · cases h
        exact ⟨Nat.le_refl _, hrows⟩
      · cases h
    · next xs s₁ hrow =>
      have hlen : xs.length = data.length := readRow_from hrow
      have hvector : { rowVector data with data := xs } = rowVector xs := by
        rw [rowVector, rowVector, hlen]
      have hne' : xs ≠ [] := by
        rintro rfl
        exact hne (List.eq_nil_of_length_eq_zero hlen.symm)
      rw [hvector] at h
      split at h
      · cases h
      · cases h
      · next m₁ happend =>
        obtain ⟨hcols₁, hrows₁⟩ :=
          appendMatrix_rowCount (hcols.trans hlen.symm) hne' (hlen ▸ hfits) hrows happend
        have hbound : m.mRowCount ≤ m₁.mRowCount ∧ m₁.mRowCount ≤ 2 ^ 31 := by
          rw [hrows₁]
          split <;> omega
        obtain ⟨hlow, hhigh⟩ :=
          ih ((hcols₁.trans hcols).trans hlen.symm) hne' (hlen ▸ hfits) hbound.2 h
        exact ⟨Nat.le_trans hbound.1 hlow, hhigh⟩

/-- After one row, the values of another matrix are taken for a second row. -/
theorem readRows_runs_on {fuel : Nat} (hone : m.mRowCount = 1) (hcols : m.mColCount = data.length)
    (hne : data ≠ []) (hfits : data.length < 2 ^ 64) (ht : Ends t)
    (h : readRows (.plenty sizeofT) fuel m (rowVector data) ('\n' :: (printInt x ++ t)) =
      some (.ok (true, m', s'))) :
    2 ≤ m'.mRowCount := by
  obtain ⟨old, data, rfl⟩ := List.exists_cons_of_ne_nil hne
  obtain ⟨text, htext⟩ := exists_printInt x
  have hscan := scanInt_printInt x ht
  rw [htext, List.cons_append] at hscan
  cases fuel with
  | zero => cases h
  | succ fuel =>
    have hfirst : readRow m.mColCount 0 (old :: data) ('\n' :: (printInt x ++ t)) =
        readRow data.length 1 (x :: data) t := by
      rw [hcols, htext, List.cons_append, readRow_newline, if_neg (by simp), List.length_cons,
        readRow]
      have hc : toChar (getc (' ' :: (text ++ t))).1 = some ' ' := rfl
      simp only [hc]
      rw [if_neg (by simp), if_neg (by simp)]
      simp only [ungetc, getc, hscan]
      rfl
    simp only [readRows, show (rowVector (old :: data)).data = old :: data from rfl, hfirst] at h
    split at h
    · cases h
    · next hrow =>
      rw [if_neg (Nat.ne_of_gt (readRow_from hrow))] at h
      cases h
    · next hrow =>
      rw [if_neg (Nat.ne_of_gt (readRow_from hrow))] at h
      cases h
    · next xs s₁ hrow =>
      have hlen : xs.length = (old :: data).length := readRow_from hrow
      have hvector : { rowVector (old :: data) with data := xs } = rowVector xs := by
        rw [rowVector, rowVector, hlen]
      have hne' : xs ≠ [] := by
        rintro rfl
        cases hlen
      rw [hvector] at h
      split at h
      · cases h
      · cases h
      · next m₁ happend =>
        obtain ⟨hcols₁, hrows₁⟩ := appendMatrix_rowCount (hcols.trans hlen.symm) hne'
          (hlen ▸ hfits) (by rw [hone]; decide) happend
        have htwo : m₁.mRowCount = 2 := by
          rw [hrows₁, hone]
          rfl
        have hrows := readRows_rowCount ((hcols₁.trans hcols).trans hlen.symm) hne' (hlen ▸ hfits)
          (by rw [htwo]; decide) h
        omega

end Phases

/-! ## One matrix after the other -/

/-- The sizes and the cells are the same. -/
structure SameCells (m m' : TMatrix Int) : Prop where
  rowCount : m.mRowCount = m'.mRowCount
  colCount : m.mColCount = m'.mColCount
  cells : ∀ k < m'.mRowCount * m'.mColCount, m.data[k]? = m'.data[k]?

/-- Matrices that are written to one stream. -/
def written (Ms : List (OwnedMatrix Int)) : Option Stream :=
  (Ms.mapM fun M => toFile M.toTMatrix true).map List.flatten

/-- Each matrix is read into a fresh one, up to where the next one was written. -/
def ReadsBack (mem : Allocator) : List (OwnedMatrix Int) → Stream → Prop
  | [], s => s = []
  | M :: Ms, s => ∃ fuel m' rest, fromFile mem fuel fresh s = some (.ok (true, m', rest)) ∧
      SameCells m' M.toTMatrix ∧ written Ms = some rest ∧ ReadsBack mem Ms rest

section Files

variable {m : TMatrix Int} {M : OwnedMatrix Int} {Ms : List (OwnedMatrix Int)} {sizeofT fuel : Nat}
  {x : Int} {s t rest : Stream}

theorem written_eq (Ms : List (OwnedMatrix Int)) :
    written Ms = some (Ms.flatMap fun M => matrixText M.toTMatrix) := by
  rw [written, mapM_eq_some fun M _ => toFile_eq M]
  rfl

/-- A matrix with rows, and its text. -/
theorem exists_allRows (hrows : 1 ≤ M.mRowCount) :
    ∃ xs xss, allRows M.toTMatrix = xs :: xss ∧ xss.length + 1 = M.mRowCount := by
  have hlen : (allRows M.toTMatrix).length = M.mRowCount := by
    rw [allRows, List.length_map, List.length_range]
  cases hall : allRows M.toTMatrix with
  | nil =>
    rw [hall, List.length_nil] at hlen
    omega
  | cons xs xss => exact ⟨xs, xss, rfl, by rw [← hlen, hall, List.length_cons]⟩

/-- What is written starts with a value. -/
theorem exists_matrixText (hrows : 1 ≤ M.mRowCount) (hcols : 1 ≤ M.mColCount) (rest : Stream) :
    ∃ x t, matrixText M.toTMatrix ++ rest = printInt x ++ t ∧ Ends t := by
  obtain ⟨xs, xss, hall, -⟩ := exists_allRows hrows
  have hlen : xs.length = M.mColCount :=
    length_of_mem_allRows (by rw [hall]; exact List.mem_cons_self)
  obtain ⟨x, xs, rfl⟩ := List.exists_cons_of_length_pos (by omega : 0 < xs.length)
  refine ⟨x, xs.flatMap printInt ++ '\n' :: (xss.flatMap rowText ++ '\n' :: rest), ?_,
    ends_values xs⟩
  rw [matrixText, hall, List.flatMap_cons, rowText, List.flatMap_cons]
  simp only [List.append_assoc, List.cons_append, List.nil_append]

theorem HoldsRows.sameCells (h : HoldsRows m M.mColCount (allRows M.toTMatrix)) :
    SameCells m M.toTMatrix := by
  have hlen : (allRows M.toTMatrix).length = M.mRowCount := by
    rw [allRows, List.length_map, List.length_range]
  refine ⟨h.rowCount.trans hlen, h.colCount, fun k hk => ?_⟩
  rw [h.cells k (by rwa [hlen]), allRows, flatten_rowCells, List.getElem?_take_of_lt hk]

/-- A matrix is read row by row after the first phase. -/
theorem fromFile_matrixText (sizeofT : Nat) (hrows : 1 ≤ M.mRowCount) (hcols : 1 ≤ M.mColCount)
    (rest : Stream) :
    ∃ xs xss m, allRows M.toTMatrix = xs :: xss ∧ xss.length + 1 = M.mRowCount ∧
      HoldsRows m M.mColCount [xs] ∧ ∀ fuel,
        fromFile (.plenty sizeofT) fuel fresh (matrixText M.toTMatrix ++ rest) =
          if fuel < M.mColCount then none
          else readRows (.plenty sizeofT) fuel m (rowVector (List.replicate M.mColCount 0))
            (xss.flatMap rowText ++ '\n' :: rest) := by
  obtain ⟨xs, xss, hall, hcount⟩ := exists_allRows hrows
  have hlen : xs.length = M.mColCount :=
    length_of_mem_allRows (by rw [hall]; exact List.mem_cons_self)
  have hne : xs ≠ [] := by
    rintro rfl
    rw [List.length_nil] at hlen
    omega
  have hcells := M.owned.cells
  have hfits := M.owned.fits
  have hfirst : M.mColCount ≤ M.mRowCount * M.mColCount := Nat.le_mul_of_pos_left _ hrows
  have htext : matrixText M.toTMatrix ++ rest =
      rowText xs ++ (xss.flatMap rowText ++ '\n' :: rest) := by
    rw [matrixText, hall, List.flatMap_cons]
    simp only [List.append_assoc, List.singleton_append]
  obtain ⟨m, hholds, hread⟩ := fromFile_firstRow sizeofT hne (by omega)
    (xss.flatMap rowText ++ '\n' :: rest)
  rw [hlen, ← htext] at hread
  exact ⟨xs, xss, m, hall, hcount, hlen ▸ hholds, hread⟩

theorem length_zeros (hcols : 1 ≤ M.mColCount) (hrows : 1 ≤ M.mRowCount) :
    List.replicate M.mColCount (0 : Int) ≠ [] ∧
      (List.replicate M.mColCount (0 : Int)).length < 2 ^ 64 := by
  have hcells := M.owned.cells
  have hfits := M.owned.fits
  have hfirst : M.mColCount ≤ M.mRowCount * M.mColCount := Nat.le_mul_of_pos_left _ hrows
  rw [Ne, List.replicate_eq_nil_iff, List.length_replicate]
  omega

/-- No more than 2^31 rows are read. -/
theorem fromFile_rowCount (hrows : 1 ≤ M.mRowCount) (hcols : 1 ≤ M.mColCount)
    (h : fromFile (.plenty sizeofT) fuel fresh (matrixText M.toTMatrix ++ rest) =
      some (.ok (true, m, s))) :
    m.mRowCount ≤ 2 ^ 31 := by
  obtain ⟨xs, xss, m₁, -, -, hholds, hread⟩ := fromFile_matrixText sizeofT hrows hcols rest
  obtain ⟨hne, hfits⟩ := length_zeros hcols hrows
  have hone : m₁.mRowCount = 1 := hholds.rowCount
  rw [hread] at h
  split at h
  · cases h
  · refine (readRows_rowCount ?_ hne hfits (by rw [hone]; decide) h).2
    rw [hholds.colCount, List.length_replicate]

/-- When something follows a matrix of one row, more rows are read. -/
theorem fromFile_runs_on (hrows : M.mRowCount = 1) (hcols : 1 ≤ M.mColCount) (ht : Ends t)
    (h : fromFile (.plenty sizeofT) fuel fresh (matrixText M.toTMatrix ++ (printInt x ++ t)) =
      some (.ok (true, m, s))) :
    2 ≤ m.mRowCount := by
  obtain ⟨xs, xss, m₁, -, hcount, hholds, hread⟩ :=
    fromFile_matrixText sizeofT (Nat.le_of_eq hrows.symm) hcols (printInt x ++ t)
  obtain ⟨hne, hfits⟩ := length_zeros hcols (Nat.le_of_eq hrows.symm)
  have hempty : xss = [] := List.eq_nil_of_length_eq_zero (by omega)
  rw [hread, hempty] at h
  split at h
  · cases h
  · refine readRows_runs_on hholds.rowCount ?_ hne hfits ht h
    rw [hholds.colCount, List.length_replicate]

/-- A matrix reads back when it has two rows, or nothing follows. -/
theorem fromFile_reads (sizeofT : Nat) (hrows : 1 ≤ M.mRowCount) (hcols : 1 ≤ M.mColCount)
    (hbound : M.mRowCount ≤ 2 ^ 31) (hnext : rest = [] ∨ 2 ≤ M.mRowCount) :
    ∃ fuel m, fromFile (.plenty sizeofT) fuel fresh (matrixText M.toTMatrix ++ rest) =
      some (.ok (true, m, rest)) ∧ SameCells m M.toTMatrix := by
  obtain ⟨xs, xss, m, hall, hcount, hholds, hread⟩ :=
    fromFile_matrixText sizeofT hrows hcols rest
  have hwidth : ∀ ys ∈ xs :: xss, ys.length = M.mColCount := fun ys hys =>
    length_of_mem_allRows (by rwa [hall])
  have hzeros : (List.replicate M.mColCount (0 : Int)).length = M.mColCount :=
    List.length_replicate
  have hcells := M.owned.cells
  have hfits := M.owned.fits
  cases xss with
  | nil =>
    -- the end of the file is in front of the second row
    rw [List.length_nil] at hcount
    have hnil : rest = [] := hnext.resolve_right (by omega)
    obtain ⟨n, hn⟩ := Nat.exists_eq_succ_of_ne_zero (Nat.ne_of_gt hcols)
    refine ⟨M.mColCount, m, ?_, HoldsRows.sameCells (by rwa [hall])⟩
    rw [hread, if_neg (Nat.lt_irrefl _), hnil]
    have hcol : m.mColCount = n + 1 := hholds.colCount.trans hn
    rw [hn, readRows, hcol]
    rfl
  | cons ys xss =>
    rw [List.length_cons] at hcount
    have hlen := hwidth ys (List.mem_cons_of_mem xs List.mem_cons_self)
    have hne : ys ≠ [] := by
      rintro rfl
      rw [List.length_nil] at hlen
      omega
    have htwo : (1 + 1) * M.mColCount ≤ M.mRowCount * M.mColCount :=
      Nat.mul_le_mul_right _ (by omega)
    obtain ⟨m₁, hholds₁, hstep⟩ := readRows_row sizeofT hholds hlen hne
      (by rw [List.length_singleton]; decide) (by rw [List.length_singleton]; omega)
      hzeros (Or.inl rfl) (xss.flatMap rowText ++ '\n' :: rest)
    have hcount₁ : ([xs] ++ [ys]).length + xss.length = M.mRowCount := by
      rw [List.length_append, List.length_singleton, List.length_singleton]
      omega
    obtain ⟨m', hholds', hrun⟩ := readRows_rows sizeofT hholds₁ (by omega)
      (fun zs hzs => hwidth zs (List.mem_cons_of_mem xs (List.mem_cons_of_mem ys hzs)))
      (by omega) (by rw [hcount₁]; omega) hlen rest
    refine ⟨M.mColCount + xss.length + 1 + 1, m', ?_,
      HoldsRows.sameCells (by rw [hall]; exact hholds')⟩
    rw [hread, if_neg (by omega), List.flatMap_cons, List.append_assoc]
    exact (hstep (M.mColCount + xss.length + 1)).trans (hrun _ (by omega))

/-- The first matrix reads back and the others do. -/
theorem readsBack_cons (sizeofT : Nat)
    (hsizes : ∀ N ∈ M :: Ms, 1 ≤ N.mRowCount ∧ 1 ≤ N.mColCount) :
    (∃ s, written (M :: Ms) = some s ∧ ReadsBack (.plenty sizeofT) (M :: Ms) s) ↔
      (M.mRowCount ≤ 2 ^ 31 ∧ (Ms = [] ∨ 2 ≤ M.mRowCount)) ∧
        ∃ s, written Ms = some s ∧ ReadsBack (.plenty sizeofT) Ms s := by
  obtain ⟨hrows, hcols⟩ := hsizes M List.mem_cons_self
  simp only [written_eq, Option.some.injEq, exists_eq_left', List.flatMap_cons]
  constructor
  · rintro ⟨fuel, m, rest, hrun, hsame, hrest, hback⟩
    rw [written_eq, Option.some.injEq] at hrest
    subst hrest
    have hbound := fromFile_rowCount hrows hcols hrun
    have hcount := hsame.rowCount
    refine ⟨⟨by omega, ?_⟩, hback⟩
    cases Ms with
    | nil => exact Or.inl rfl
    | cons N Ms =>
      refine Or.inr ?_
      by_contra hnot
      obtain ⟨hrows', hcols'⟩ := hsizes N (List.mem_cons_of_mem M List.mem_cons_self)
      obtain ⟨x, t, htext, ht⟩ :=
        exists_matrixText hrows' hcols' (Ms.flatMap fun M => matrixText M.toTMatrix)
      rw [List.flatMap_cons, htext] at hrun
      have htwo := fromFile_runs_on (by omega) hcols ht hrun
      omega
  · rintro ⟨⟨hbound, hnext⟩, hback⟩
    have hrest : (Ms.flatMap fun M => matrixText M.toTMatrix) = [] ∨ 2 ≤ M.mRowCount :=
      hnext.imp_left fun hnil => by rw [hnil, List.flatMap_nil]
    obtain ⟨fuel, m, hrun, hsame⟩ := fromFile_reads sizeofT hrows hcols hbound hrest
    exact ⟨fuel, m, _, hrun, hsame, written_eq Ms, hback⟩

/-- Matrices that are written to one stream read back exactly when none has more than 2^31 rows,
and all but the last one have two rows. -/
theorem reads_back_iff (sizeofT : Nat) (Ms : List (OwnedMatrix Int))
    (hsizes : ∀ M ∈ Ms, 1 ≤ M.mRowCount ∧ 1 ≤ M.mColCount) :
    (∃ s, written Ms = some s ∧ ReadsBack (.plenty sizeofT) Ms s) ↔
      (∀ M ∈ Ms, M.mRowCount ≤ 2 ^ 31) ∧ ∀ M ∈ Ms.dropLast, 2 ≤ M.mRowCount := by
  induction Ms with
  | nil => exact iff_of_true ⟨[], rfl, rfl⟩ ⟨by simp, by simp⟩
  | cons M Ms ih =>
    rw [readsBack_cons sizeofT hsizes, ih fun N hN => hsizes N (List.mem_cons_of_mem M hN),
      List.forall_mem_cons]
    cases Ms with
    | nil => simp
    | cons N Ms =>
      have hlast : (∀ M' ∈ (M :: N :: Ms).dropLast, 2 ≤ M'.mRowCount) ↔
          2 ≤ M.mRowCount ∧ ∀ M' ∈ (N :: Ms).dropLast, 2 ≤ M'.mRowCount := by
        rw [List.dropLast_cons_of_ne_nil (List.cons_ne_nil N Ms), List.forall_mem_cons]
      rw [hlast]
      constructor
      · rintro ⟨⟨hbound, hnext⟩, hbounds, htwo⟩
        exact ⟨⟨hbound, hbounds⟩, hnext.resolve_left (List.cons_ne_nil N Ms), htwo⟩
      · rintro ⟨⟨hbound, hbounds⟩, hnext, htwo⟩
        exact ⟨⟨hbound, Or.inr hnext⟩, hbounds, htwo⟩

/-- A column of values. -/
def column (xs : List Int) (h : xs.length < 2 ^ 64) : OwnedMatrix Int :=
  ⟨⟨xs, xs.length, 1, "no error"⟩, ⟨Nat.le_of_eq (Nat.mul_one _), h⟩⟩

/-- Three matrices, of two rows, two rows and one. -/
theorem reads_back_iff_three :
    ∃ s, written [column [1, -2] (by decide), column [30, 0] (by decide), column [7] (by decide)] =
        some s ∧
      ReadsBack (.plenty 4)
        [column [1, -2] (by decide), column [30, 0] (by decide), column [7] (by decide)] s :=
  (reads_back_iff 4 _ (by decide)).mpr ⟨by decide, by decide⟩

/-- Two matrices of one row: the first one is read as a matrix of two rows. -/
theorem rows_run_together :
    written [column [5] (by decide), column [6] (by decide)] = some " 5\n\n 6\n\n".toList ∧
      fromFile (.plenty 4) 9 fresh " 5\n\n 6\n\n".toList =
        some (.ok (true, ⟨5 :: 6 :: List.replicate 14 0, 2, 1, "no error"⟩, [])) ∧
      ¬ ∃ s, written [column [5] (by decide), column [6] (by decide)] = some s ∧
        ReadsBack (.plenty 4) [column [5] (by decide), column [6] (by decide)] s := by
  refine ⟨by decide, by decide, ?_⟩
  rw [readsBack_cons 4 (by decide)]
  rintro ⟨⟨-, hnext⟩, -⟩
  rcases hnext with hnil | htwo
  · cases hnil
  · exact absurd htwo (by decide)

end Files

end Rubyk.TMatrix.SizeT
