/-
  Core/TMatrixRows.lean --- the rows that `copy_at` copies.

  The rows are `int`s that may count from the end; the code resolves them as `size_t`s,
  where a row before the first one is a very large number.  `rowOf_lt_iff` says that the
  tests on the `size_t` still mean what they say.

  A range that ends before it starts is not tested for.  Other slips are on the way to a
  refusal: the text for a bad column count cannot be formatted, and when there is no
  memory the matrix has the columns of the other one already.  `CopyCondition` is what is
  left (`copies_rows_iff`).
-/
import Rubyk.Core.TMatrixSizes

set_option autoImplicit false

namespace Rubyk.TMatrix.SizeT

open Lib

variable {α : Type} {mem : Allocator} {m other : TMatrix α} {row startRow endRow : Int32}

/-! ## The range -/

/-- Both ends of the range are rows of the other matrix. -/
def InRange (other : TMatrix α) (startRow endRow : Int32) : Prop :=
  (0 ≤ other.rowIndex startRow.toInt ∧ other.rowIndex startRow.toInt < other.mRowCount) ∧
    0 ≤ other.rowIndex endRow.toInt ∧ other.rowIndex endRow.toInt < other.mRowCount

theorem checkSizes_refused (hrows : other.mRowCount < 2 ^ 64) (msg : String) (allow : Bool)
    (h : ¬ InRange other startRow endRow) :
    ∃ text, checkSizes m msg other startRow endRow allow = .error text := by
  rw [InRange, ← rowOf_lt_iff hrows, ← rowOf_lt_iff hrows] at h
  simp only [checkSizes]
  by_cases hfirst : other.mRowCount ≤ rowOf other startRow
  · exact ⟨_, if_pos hfirst⟩
  · have hlast : other.mRowCount ≤ rowOf other endRow := by omega
    rw [if_neg hfirst, if_pos hlast]
    exact ⟨_, rfl⟩

theorem checkSizes_columns (hrows : other.mRowCount < 2 ^ 64) (hother : other.mColCount ≠ 0)
    (msg : String) (allow : Bool) (h : InRange other startRow endRow) :
    checkSizes m msg other startRow endRow allow =
      if other.mColCount = m.mColCount ∨ allow = true
        then .rows (rowOf other startRow) (rowOf other endRow) else .undefined := by
  rw [InRange, ← rowOf_lt_iff hrows, ← rowOf_lt_iff hrows] at h
  simp only [checkSizes]
  rw [if_neg (by omega), if_neg (by omega), if_neg hother]
  by_cases hcols : other.mColCount = m.mColCount ∨ allow = true
  · rw [if_pos hcols, if_neg]
    rintro ⟨hne, hallow⟩
    rcases hcols with heq | htrue
    · exact hne heq
    · rw [hallow] at htrue
      cases htrue
  · rw [not_or] at hcols
    rw [if_neg (not_or.mpr hcols), if_pos ⟨hcols.1, Bool.not_eq_true _ ▸ hcols.2⟩]

/-! ## What a copy should do -/

/-- The rows from `first` to `last` of the other matrix are now at row `target`. -/
structure HasRows (m m' other : TMatrix α) (target first last : Nat) : Prop where
  colCount : m'.mColCount = m.mColCount
  rowCount : m'.mRowCount = max m.mRowCount (target + (last - first) + 1)
  copied : ∀ k ≤ last - first, ∀ j < m.mColCount,
    m'.data[(target + k) * m.mColCount + j]? = other.data[(first + k) * m.mColCount + j]?
  kept : ∀ i < m.mRowCount, i < target ∨ target + (last - first) < i → ∀ j < m.mColCount,
    m'.data[i * m.mColCount + j]? = m.data[i * m.mColCount + j]?

/-- What a call of `copy_at` should do. -/
structure CopiesRows [Inhabited α] (mem : Allocator) (m other : TMatrix α)
    (row startRow endRow : Int32) (resize : Bool) : Prop where
  defined : ∃ r, copyAt mem m row other startRow endRow resize = .ok r
  accepted : ∀ m', copyAt mem m row other startRow endRow resize = .ok (true, m') →
    0 ≤ other.rowIndex startRow.toInt ∧
      other.rowIndex startRow.toInt ≤ other.rowIndex endRow.toInt ∧
      other.rowIndex endRow.toInt < other.mRowCount ∧
      0 ≤ m.rowIndex row.toInt ∧ m.rowIndex row.toInt ≤ m.mRowCount
  copied : ∀ m', copyAt mem m row other startRow endRow resize = .ok (true, m') →
    other.mColCount = m.mColCount → resize = false →
    HasRows m m' other (m.rowIndex row.toInt).toNat (other.rowIndex startRow.toInt).toNat
      (other.rowIndex endRow.toInt).toNat
  refused : ∀ m', copyAt mem m row other startRow endRow resize = .ok (false, m') →
    m'.mRowCount = m.mRowCount ∧ m'.mColCount = m.mColCount ∧ m'.data = m.data

/-- The condition: a range that is in the other matrix is not reversed, the columns are the same
unless the target is row 0, and if there is no memory they are the same. -/
def CopyCondition (mem : Allocator) (m other : TMatrix α) (row startRow endRow : Int32) : Prop :=
  InRange other startRow endRow →
    (other.mColCount = m.mColCount ∨ row = 0) ∧
      (0 ≤ m.rowIndex row.toInt → m.rowIndex row.toInt ≤ m.mRowCount →
        if Granted mem m (request m row other (rowOf other startRow) (rowOf other endRow)) then
          other.rowIndex startRow.toInt ≤ other.rowIndex endRow.toInt ∧
            (m.rowIndex row.toInt + (other.rowIndex endRow.toInt -
              other.rowIndex startRow.toInt + 1)) * other.mColCount < 2 ^ 64
        else other.mColCount = m.mColCount)

section Outcomes

variable [Inhabited α] {m' : TMatrix α} {resize : Bool}

theorem not_copies_of_error {e : Fault}
    (h : copyAt mem m row other startRow endRow resize = .error e) :
    ¬ CopiesRows mem m other row startRow endRow resize := by
  intro hcopies
  obtain ⟨r, hr⟩ := hcopies.defined
  rw [h] at hr
  cases hr

theorem copies_iff_of_refused
    (h : copyAt mem m row other startRow endRow resize = .ok (false, m')) :
    CopiesRows mem m other row startRow endRow resize ↔
      m'.mRowCount = m.mRowCount ∧ m'.mColCount = m.mColCount ∧ m'.data = m.data := by
  constructor
  · intro hcopies
    exact hcopies.refused m' h
  · intro hsame
    refine ⟨⟨_, h⟩, fun m'' h' => ?_, fun m'' h' => ?_, fun m'' h' => ?_⟩
    · cases h.symm.trans h'
    · cases h.symm.trans h'
    · cases h.symm.trans h'
      exact hsame

theorem copies_of_accepted
    (h : copyAt mem m row other startRow endRow resize = .ok (true, m'))
    (hrange : InRange other startRow endRow)
    (hrow : 0 ≤ m.rowIndex row.toInt ∧ m.rowIndex row.toInt ≤ m.mRowCount)
    (hle : other.rowIndex startRow.toInt ≤ other.rowIndex endRow.toInt)
    (hrows : other.mColCount = m.mColCount → resize = false →
      HasRows m m' other (m.rowIndex row.toInt).toNat (other.rowIndex startRow.toInt).toNat
        (other.rowIndex endRow.toInt).toNat) :
    CopiesRows mem m other row startRow endRow resize := by
  refine ⟨⟨_, h⟩, fun m'' h' => ?_, fun m'' h' => ?_, fun m'' h' => ?_⟩
  · exact ⟨hrange.1.1, hle, hrange.2.2, hrow⟩
  · cases h.symm.trans h'
    exact hrows
  · cases h.symm.trans h'

omit [Inhabited α] in
/-- What was copied, by rows. -/
theorem Copied.hasRows {target first last : Nat} {data : List α} (hm : Owned m)
    (hcols : other.mColCount = m.mColCount) (hpos : m.mColCount ≠ 0) (hle : first ≤ last)
    (h : Copied { m with mColCount := other.mColCount } target
      (other.data.drop (first * other.mColCount)) ((last + 1 - first) * other.mColCount) data) :
    HasRows m { m with
      data := data
      mColCount := other.mColCount
      mRowCount := rowsAfter { m with mColCount := other.mColCount } target
        ((last + 1 - first) * other.mColCount) false } other target first last := by
  obtain ⟨-, hnew, hold⟩ := h
  simp only [hcols] at hnew hold
  have hcount : last + 1 - first = last - first + 1 := by omega
  rw [hcount] at hnew hold
  refine ⟨hcols, ?_, fun k hk j hj => ?_, fun i hi hout j hj => ?_⟩
  · simp only [rowsAfter, hcols, hcount, Nat.mul_div_cancel _ (Nat.pos_of_ne_zero hpos),
      Bool.false_eq_true, or_false]
    split <;> omega
  · have hcell : k * m.mColCount + j < (last - first + 1) * m.mColCount :=
      rowMajor_lt (by omega) hj
    have heq := hnew _ hcell
    rw [List.getElem?_drop, ← Nat.add_assoc, ← Nat.add_assoc, ← Nat.add_mul, ← Nat.add_mul] at heq
    exact heq
  · have hin : i * m.mColCount + j < m.mRowCount * m.mColCount := rowMajor_lt hi hj
    refine hold _ (Nat.lt_of_lt_of_le hin hm.cells) ?_
    rcases hout with hlt | hgt
    · exact Or.inl (rowMajor_lt hlt hj)
    · refine Or.inr ?_
      have hrows : (target + (last - first + 1)) * m.mColCount ≤ i * m.mColCount :=
        Nat.mul_le_mul_right _ hgt
      rw [Nat.add_mul] at hrows
      omega

omit [Inhabited α] in
theorem fits_cast {off first last cols : Nat} :
    ((first : Int) ≤ last ∧ ((off : Int) + (last - first + 1)) * cols < 2 ^ 64) ↔
      first ≤ last ∧ off * cols + (last + 1 - first) * cols < 2 ^ 64 := by
  rw [Int.ofNat_le]
  refine and_congr_right fun hle => ?_
  have hsum : (off : Int) + (last - first + 1) = (off + (last + 1 - first) : Nat) := by omega
  rw [hsum, ← Nat.add_mul]
  exact_mod_cast Iff.rfl

/-- There is memory for the copy. -/
theorem copies_iff_of_granted {m other : OwnedMatrix α} (hm : m.mColCount ≠ 0)
    (hrange : InRange other.toTMatrix startRow endRow)
    (hsizes : checkSizes m.toTMatrix "copy" other.toTMatrix startRow endRow (row == 0) =
      .rows (rowOf other.toTMatrix startRow) (rowOf other.toTMatrix endRow))
    (hrow : rowOf m.toTMatrix row ≤ m.mRowCount)
    (hgranted : Granted mem m.toTMatrix (request m.toTMatrix row other.toTMatrix
      (rowOf other.toTMatrix startRow) (rowOf other.toTMatrix endRow))) :
    CopiesRows mem m.toTMatrix other.toTMatrix row startRow endRow resize ↔
      rowOf other.toTMatrix startRow ≤ rowOf other.toTMatrix endRow ∧
        rowOf m.toTMatrix row * other.mColCount +
          (rowOf other.toTMatrix endRow + 1 - rowOf other.toTMatrix startRow) * other.mColCount <
            2 ^ 64 := by
  obtain ⟨-, -, -, hlast, hcols, hchange⟩ := checkSizes_eq_rows hsizes
  have hrows := m.owned.rowCount_lt hm
  have hothers := other.owned.rowCount_lt hcols
  have htarget := (rowOf_le_iff hrows row).mp hrow
  have hindex := rowOf_eq hrows row htarget.1
  have hfirst := rowOf_eq hothers startRow hrange.1.1
  have hend := rowOf_eq hothers endRow hrange.2.1
  rcases Nat.lt_or_ge (rowOf other.toTMatrix endRow + 1) (rowOf other.toTMatrix startRow)
    with hlt | hle
  · have hfault := copyAt_reversed m.owned hsizes hrow hlt hgranted resize
    exact iff_of_false (not_copies_of_error hfault) fun h => by omega
  · obtain ⟨hstart, hcount, hsource⟩ := copySource other hlast hle
    have hoff := Nat.lt_of_le_of_lt (m.owned.target_le hrow hchange) m.owned.fits
    have hcopy : copyAt mem m.toTMatrix row _ _ _ _ = _ := copyAt_rows hsizes hrow hle resize
    rw [request, hcount] at hgranted
    by_cases hfits : rowOf m.toTMatrix row * other.mColCount +
        (rowOf other.toTMatrix endRow + 1 - rowOf other.toTMatrix startRow) * other.mColCount <
          2 ^ 64
    · rw [wrap_of_lt hfits] at hgranted
      obtain ⟨data, hraw, hcopied⟩ := rawCopy_granted
        (m := { m.toTMatrix with mColCount := other.mColCount }) hcols hsource hfits hgranted
        (resize && row == 0)
      rw [hraw] at hcopy
      by_cases hordered : rowOf other.toTMatrix startRow ≤ rowOf other.toTMatrix endRow
      · refine iff_of_true ?_ ⟨hordered, hfits⟩
        refine copies_of_accepted hcopy hrange htarget (by omega) fun hsame hresize => ?_
        rw [← hindex, ← hfirst, ← hend, Int.toNat_natCast, Int.toNat_natCast, Int.toNat_natCast,
          hresize, Bool.false_and]
        exact hcopied.hasRows m.owned hsame hm hordered
      · -- a range that ends right before its start: nothing is copied, and nothing is refused
        refine iff_of_false (fun hcopies => ?_) fun h => hordered h.1
        have hresolved := (hcopies.accepted _ hcopy).2.1
        omega
    · rw [rawCopy_outside (m := { m.toTMatrix with mColCount := other.mColCount }) hcols
        m.owned.fits hoff (Or.inr (Nat.le_of_not_lt hfits)) hgranted] at hcopy
      exact iff_of_false (not_copies_of_error hcopy) fun h => hfits h.2

/-- For two matrices with columns, `copy_at` does what it should exactly under the condition. -/
theorem copies_rows_iff (mem : Allocator) (m other : OwnedMatrix α) (hm : m.mColCount ≠ 0)
    (hother : other.mColCount ≠ 0) (row startRow endRow : Int32) (resize : Bool) :
    CopiesRows mem m.toTMatrix other.toTMatrix row startRow endRow resize ↔
      CopyCondition mem m.toTMatrix other.toTMatrix row startRow endRow := by
  have hrows := m.owned.rowCount_lt hm
  have hothers := other.owned.rowCount_lt hother
  unfold CopyCondition
  by_cases hrange : InRange other.toTMatrix startRow endRow
  · rw [imp_iff_right hrange]
    have hsizes := checkSizes_columns (m := m.toTMatrix) hothers hother "copy" (row == 0) hrange
    by_cases hcols : other.mColCount = m.mColCount ∨ row = 0
    · rw [if_pos (hcols.imp_right beq_iff_eq.mpr)] at hsizes
      by_cases hrow : rowOf m.toTMatrix row ≤ m.mRowCount
      · have htarget := (rowOf_le_iff hrows row).mp hrow
        have hfirst := rowOf_eq hothers startRow hrange.1.1
        have hlast := rowOf_eq hothers endRow hrange.2.1
        have hstart := rowOf_eq hrows row htarget.1
        by_cases hgranted : Granted mem m.toTMatrix (request m.toTMatrix row other.toTMatrix
            (rowOf other.toTMatrix startRow) (rowOf other.toTMatrix endRow))
        · rw [copies_iff_of_granted hm hrange hsizes hrow hgranted, if_pos hgranted, ← hfirst,
            ← hlast, ← hstart, fits_cast]
          exact ⟨fun h => ⟨hcols, fun _ _ => h⟩, fun h => h.2 (by omega) (by omega)⟩
        · obtain ⟨text, htext⟩ := copyAt_refused m.owned hsizes hrow hgranted resize
          rw [if_neg hgranted, copies_iff_of_refused htext]
          exact ⟨fun h => ⟨hcols, fun _ _ => h.2.1⟩,
            fun h => ⟨rfl, h.2 htarget.1 htarget.2, rfl⟩⟩
      · have hrefused : ∃ text, copyAt mem m.toTMatrix row other.toTMatrix startRow endRow resize =
            .ok (false, m.setError text) := by
          simp only [copyAt, hsizes, if_pos (Nat.lt_of_not_le hrow)]
          exact ⟨_, rfl⟩
        obtain ⟨text, htext⟩ := hrefused
        rw [copies_iff_of_refused htext]
        refine iff_of_true ⟨rfl, rfl, rfl⟩ ⟨hcols, fun hlow hhigh => ?_⟩
        exact absurd ((rowOf_le_iff hrows row).mpr ⟨hlow, hhigh⟩) hrow
    · have hallow : ¬ (other.mColCount = m.mColCount ∨ (row == 0) = true) := fun h =>
        hcols (h.imp_right eq_of_beq)
      rw [if_neg hallow] at hsizes
      have hfault : copyAt mem m.toTMatrix row other.toTMatrix startRow endRow resize =
          .error .format := by
        simp only [copyAt, hsizes]
      exact iff_of_false (not_copies_of_error hfault) fun h => hcols h.1
  · obtain ⟨text, htext⟩ := checkSizes_refused (m := m.toTMatrix) hothers "copy" (row == 0) hrange
    have hrefused : copyAt mem m.toTMatrix row other.toTMatrix startRow endRow resize =
        .ok (false, m.setError text) := by
      simp only [copyAt, htext]
    rw [copies_iff_of_refused hrefused]
    exact iff_of_true ⟨rfl, rfl, rfl⟩ fun h => absurd h hrange

end Outcomes

/-- Three rows of two values. -/
def threeRows : OwnedMatrix Int := ⟨⟨[1, 2, 3, 4, 5, 6], 3, 2, "no error"⟩, ⟨by decide, by decide⟩⟩

/-- The second row to the last row, as in the comment of `copy_at`. -/
theorem copies_rows_iff_lastRow :
    CopiesRows (.plenty 8) threeRows.toTMatrix threeRows.toTMatrix (-1) 1 1 false := by
  refine (copies_rows_iff (.plenty 8) threeRows threeRows (by decide) (by decide) (-1) 1 1
    false).mpr fun _ => ⟨Or.inl rfl, fun _ _ => ?_⟩
  rw [if_pos (granted_plenty 8 _ _)]
  decide

/-- A range that ends before it starts is accepted; and a refusal for a bad column count cannot be
formatted. -/
theorem reversed_range_accepted :
    ¬ CopiesRows (.plenty 8) threeRows.toTMatrix threeRows.toTMatrix 0 1 0 false ∧
      copyAt (.plenty 8) ⟨[7], 1, 1, "no error"⟩ 1 threeRows.toTMatrix 0 0 false =
        .error .format := by
  refine ⟨fun h => ?_, by decide⟩
  have haccepted : copyAt (.plenty 8) threeRows.toTMatrix 0 threeRows.toTMatrix 1 0 false =
      .ok (true, threeRows.toTMatrix) := by decide
  exact absurd (h.accepted _ haccepted).2.1 (by decide)

end Rubyk.TMatrix.SizeT
