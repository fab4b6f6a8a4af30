/-
  Core/TMatrixOwned.lean --- a matrix owns the cells that it claims.

  `mStorageSize` should be "greater or equal to mRowCount * mColCount".  Each operation
  changes the two counts and the storage in its own way, and some change one of them
  only: `copy_at` to row 0 takes over the other column count and keeps the rows, and an
  `append` to a matrix without columns counts the rows that had none.  `Keeps` is the
  condition for each operation, on the matrix before it; a whole run keeps the cells
  exactly when each call meets it.

  The other matrix of a call is one that owns its cells: it comes from a run of its own.
-/
import Rubyk.Core.TMatrixSizes

set_option autoImplicit false

namespace Rubyk.TMatrix.SizeT

open Lib

variable {α : Type}

/-- A call of an operation, with its arguments. -/
inductive Call (α : Type) where
  | setSizes (rowCount colCount : Nat)
  | copy (other : OwnedMatrix α) (startRow endRow : Int32)
  | copyAt (row : Int32) (other : OwnedMatrix α) (startRow endRow : Int32) (resize : Bool)
  | appendValue (value : α)
  | appendVector (vector : List α)
  | appendMatrix (other : OwnedMatrix α) (startRow endRow : Int32)
  | castAppend (vector : List α)
  | identity (rowCount : Nat)

/-- `TMatrix()` and `TMatrix(pRowCount, pColCount)`. -/
inductive Constructor where
  | empty
  | sizes (rowCount colCount : Nat)
  deriving DecidableEq, Repr

section Runs

variable [Inhabited α] [Zero α] [One α]

/-- The matrix after a call, which the caller keeps whether or not the call failed. -/
def step (mem : Allocator) (m : TMatrix α) : Call α → Except Fault (TMatrix α)
  | .setSizes rowCount colCount => .ok (setSizes mem m rowCount colCount).2
  | .copy other startRow endRow => (copy mem m other.toTMatrix startRow endRow).map Prod.snd
  | .copyAt row other startRow endRow resize =>
      (copyAt mem m row other.toTMatrix startRow endRow resize).map Prod.snd
  | .appendValue value => (appendValue mem m value).map Prod.snd
  | .appendVector vector => (appendVector mem m vector).map Prod.snd
  | .appendMatrix other startRow endRow =>
      (appendMatrix mem m other.toTMatrix startRow endRow).map Prod.snd
  | .castAppend vector => (castAppend mem m vector).map Prod.snd
  | .identity rowCount => (identity mem m rowCount).map Prod.snd

/-- The new matrix. -/
def Constructor.build (mem : Allocator) : Constructor → TMatrix α
  | .empty => ⟨[], 0, 0, "no error"⟩
  | .sizes rowCount colCount =>
      (reallocate mem ⟨[], rowCount, colCount, "no error"⟩ (wrap (rowCount * colCount : Nat))).2

end Runs

/-! ## The conditions -/

/-- When other columns come, the rows fit: they are all replaced, or there is room for them. -/
def KeepsWidth (m other : TMatrix α) (rows : Nat) (resize : Bool) : Prop :=
  other.mColCount = m.mColCount ∨ resize = true ∨ m.mRowCount ≤ rows ∨
    m.mRowCount * other.mColCount ≤ grown m (rows * other.mColCount)

/-- A copy that is not refused has a range that is not reversed, and rows that fit. -/
def CopyKeeps (m : TMatrix α) (row : Int32) (other : TMatrix α) (startRow endRow : Int32)
    (resize : Bool) : Prop :=
  match checkSizes m "copy" other startRow endRow (row == 0) with
  | .undefined => False
  | .error _ => True
  | .rows first last =>
      rowOf m row ≤ m.mRowCount → first ≤ last + 1 ∧
        rowOf m row * other.mColCount + (last + 1 - first) * other.mColCount < 2 ^ 64 ∧
        KeepsWidth m other (last + 1 - first) (resize && row == 0)

/-- The condition under which a call keeps the cells of the matrix. -/
def Keeps (m : TMatrix α) : Call α → Prop
  | .setSizes rowCount colCount => rowCount * colCount < 2 ^ 64
  | .copy other startRow endRow => CopyKeeps m 0 other.toTMatrix startRow endRow true
  | .copyAt row other startRow endRow resize =>
      CopyKeeps m row other.toTMatrix startRow endRow resize
  | .appendValue _ => m.mRowCount ≤ 1 → m.mColCount + 1 < 2 ^ 64
  | .appendVector vector =>
      m.mRowCount * m.mColCount + vector.length < 2 ^ 64 ∧
        (m.mColCount = 0 → vector ≠ [] ∧
          max 1 (wrap (m.mRowCount + 1)) * vector.length ≤ grown m vector.length)
  | .appendMatrix other startRow endRow =>
      CopyKeeps m (Int32.ofNat m.mRowCount) other.toTMatrix startRow endRow false
  | .castAppend vector =>
      m.mColCount ≠ 0 ∧ (vector.length % m.mColCount = 0 →
        m.mRowCount * m.mColCount + vector.length < 2 ^ 64)
  | .identity rowCount => rowCount * rowCount < 2 ^ 64

/-- The condition on a constructor. -/
def Constructor.Fits : Constructor → Prop
  | .empty => True
  | .sizes rowCount colCount => rowCount * colCount < 2 ^ 64

/-! ## One call -/

section Calls

variable [Inhabited α] {m : TMatrix α} {n : Nat}

/-- A call is defined and leaves a matrix that owns its cells. -/
def Leaves (x : Except Fault (Bool × TMatrix α)) : Prop := ∃ r, x = .ok r ∧ Owned r.2

omit [Inhabited α] in
theorem leaves_ok {r : Bool × TMatrix α} : Leaves (.ok r) ↔ Owned r.2 := by
  constructor
  · rintro ⟨r', heq, h⟩
    obtain rfl := Except.ok.inj heq
    exact h
  · intro h
    exact ⟨r, rfl, h⟩

omit [Inhabited α] in
theorem not_leaves_error {e : Fault} : ¬ Leaves (α := α) (.error e) := by
  rintro ⟨r, heq, -⟩
  cases heq

omit [Inhabited α] in
theorem exists_map_snd {x : Except Fault (Bool × TMatrix α)} :
    (∃ t, x.map Prod.snd = .ok t ∧ Owned t) ↔ Leaves x := by
  cases x with
  | error e => simp [Except.map, Leaves]
  | ok r => simp [Except.map, Leaves]

theorem owned_setSizes_iff (sizeofT rows cols : Nat) (m : TMatrix α) :
    Owned (setSizes (.plenty sizeofT) m rows cols).2 ↔ rows * cols < 2 ^ 64 := by
  have hlen : (m.reallocate (wrap (rows * cols : Nat))).data.length = wrap (rows * cols : Nat) := by
    simp only [TMatrix.reallocate, List.length_append, List.length_take, List.length_replicate]
    omega
  constructor
  · intro h
    exact Nat.lt_of_le_of_lt h.cells h.fits
  · intro h
    refine ⟨?_, ?_⟩
    · change rows * cols ≤ (m.reallocate (wrap (rows * cols : Nat))).data.length
      rw [hlen, wrap_of_lt h]
    · change (m.reallocate (wrap (rows * cols : Nat))).data.length < 2 ^ 64
      rw [hlen]
      exact wrap_lt _

omit [Inhabited α] in
/-- Copies of whole rows, into a matrix that has the columns of the other one already. -/
theorem owned_rowsAfter_iff {cols off : Nat} {resize : Bool} {data : List α} (hcols : cols ≠ 0)
    (hlen : data.length = grown m (off * cols + n * cols)) (hfits : data.length < 2 ^ 64) :
    Owned { m with
      data := data
      mColCount := cols
      mRowCount := rowsAfter { m with mColCount := cols } off (n * cols) resize } ↔
      resize = true ∨ m.mRowCount ≤ off + n ∨
        m.mRowCount * cols ≤ grown m (off * cols + n * cols) := by
  have hcopied : (off + n) * cols ≤ data.length := by
    rw [hlen, Nat.add_mul]
    exact size_le_grown m _
  have hrows : rowsAfter { m with mColCount := cols } off (n * cols) resize =
      if m.mRowCount < off + n ∨ resize = true then off + n else m.mRowCount := by
    simp only [rowsAfter, Nat.mul_div_cancel n (Nat.pos_of_ne_zero hcols)]
  constructor
  · intro h
    have hcells := h.cells
    simp only [hrows] at hcells
    by_cases hresize : resize = true
    · exact Or.inl hresize
    · rcases Nat.lt_or_ge (off + n) m.mRowCount with hlt | hge
      · rw [if_neg (by rw [not_or]; exact ⟨by omega, hresize⟩), hlen] at hcells
        exact Or.inr (Or.inr hcells)
      · exact Or.inr (Or.inl hge)
  · intro h
    refine ⟨?_, hfits⟩
    simp only [hrows]
    split
    · exact hcopied
    · next hkept =>
      rw [not_or] at hkept
      rcases h with hresize | hle | hroom
      · exact absurd hresize hkept.2
      · rwa [Nat.le_antisymm hle (by omega)]
      · rwa [hlen]

theorem leaves_copyAt_iff (sizeofT : Nat) (hm : Owned m) (row : Int32) (other : OwnedMatrix α)
    (startRow endRow : Int32) (resize : Bool) :
    Leaves (copyAt (.plenty sizeofT) m row other.toTMatrix startRow endRow resize) ↔
      CopyKeeps m row other.toTMatrix startRow endRow resize := by
  unfold CopyKeeps
  cases hsizes : checkSizes m "copy" other.toTMatrix startRow endRow (row == 0) with
  | undefined =>
    simp only [copyAt, hsizes]
    exact iff_of_false not_leaves_error id
  | error text =>
    simp only [copyAt, hsizes]
    exact iff_of_true (leaves_ok.mpr (hm.setError text)) trivial
  | rows first last =>
    obtain ⟨-, -, -, hlast, hcols, hchange⟩ := checkSizes_eq_rows hsizes
    by_cases hrow : rowOf m row ≤ m.mRowCount
    · have htarget := hm.target_le hrow hchange
      have hoff := Nat.lt_of_le_of_lt htarget hm.fits
      by_cases hle : first ≤ last + 1
      · obtain ⟨-, -, hsource⟩ := copySource other hlast hle
        rw [copyAt_rows hsizes hrow hle resize]
        by_cases hfits : rowOf m row * other.mColCount +
            (last + 1 - first) * other.mColCount < 2 ^ 64
        · obtain ⟨data, hcopy, hcopied⟩ := rawCopy_granted
            (m := { m with mColCount := other.mColCount }) hcols hsource hfits
            (granted_plenty sizeofT _ _) (resize && row == 0)
          have hlen : data.length = grown m (rowOf m row * other.mColCount +
            (last + 1 - first) * other.mColCount) := hcopied.length
          rw [hcopy, leaves_ok]
          refine (owned_rowsAfter_iff hcols hlen (hlen ▸ grown_lt hm.fits hfits)).trans ?_
          rcases hchange with hsame | hzero
          · -- the columns are the same, and the rows are in the storage
            refine iff_of_true (Or.inr (Or.inr ?_)) fun _ => ⟨hle, hfits, Or.inl hsame⟩
            rw [hsame]
            exact Nat.le_trans hm.cells (length_le_grown m _)
          · have hstart : rowOf m row = 0 := by
              rw [eq_of_beq hzero]
              rfl
            rw [hstart, Nat.zero_add, Nat.zero_mul, Nat.zero_add]
            constructor
            · intro h _
              exact ⟨hle, by rw [hstart] at hfits; omega, Or.inr h⟩
            · intro h
              obtain ⟨-, -, hkeeps⟩ := h (Nat.zero_le _)
              rcases hkeeps with hsame | hkeeps
              · rw [hsame]
                exact Or.inr (Or.inr (Nat.le_trans hm.cells (length_le_grown m _)))
              · exact hkeeps
        · rw [rawCopy_outside (m := { m with mColCount := other.mColCount }) hcols hm.fits hoff
            (Or.inr (Nat.le_of_not_lt hfits)) (granted_plenty sizeofT _ _)]
          exact iff_of_false not_leaves_error fun h => hfits (h hrow).2.1
      · rw [copyAt_reversed hm hsizes hrow (by omega) (granted_plenty sizeofT _ _) resize]
        exact iff_of_false not_leaves_error fun h => hle (h hrow).1
    · simp only [copyAt, hsizes, if_pos (Nat.lt_of_not_le hrow)]
      exact iff_of_true (leaves_ok.mpr (hm.setError _)) fun h => absurd h hrow

/-- What an `append` of a vector does to a matrix without columns. -/
theorem appendVector_empty (sizeofT : Nat) (hcols : m.mColCount = 0)
    {vector : List α} (hvector : vector.length < 2 ^ 64) :
    ∃ data, data.length = grown m vector.length ∧
      appendVector (.plenty sizeofT) m vector =
        if vector.length = 0 then .error .divisionByZero
        else .ok (true, { m with
          data := data
          mColCount := vector.length
          mRowCount := max 1 (wrap (m.mRowCount + 1)) }) := by
  obtain ⟨data, halloc, hlen, hold⟩ :=
    checkAlloc_granted (granted_plenty sizeofT m vector.length)
  have hcurrent : 0 * m.mColCount + vector.length = vector.length := by omega
  have hroom : data.length = grown m (0 * m.mColCount + vector.length) := by rw [hcurrent, hlen]
  obtain ⟨data', hdata', hcopied⟩ := stores_checkAlloc hroom hold (Nat.le_refl vector.length)
  have hlen' := hcopied.length
  rw [hcurrent] at hlen'
  refine ⟨data', hlen', ?_⟩
  rw [hcols, Nat.mul_zero] at hdata'
  have hzero : wrap (0 : Nat) = 0 := rfl
  rw [appendVector, rawCopy, hcols, Nat.mul_zero, hzero, Nat.zero_add, wrap_of_lt hvector, halloc]
  simp only [if_pos hcols, hdata']
  by_cases hempty : vector.length = 0
  · rw [if_pos hempty, if_pos hempty]
  · have hdiv : ((m.mRowCount + vector.length / vector.length : Nat) : Int) = m.mRowCount + 1 := by
      rw [Nat.div_self (Nat.pos_of_ne_zero hempty)]
      rfl
    rw [if_neg hempty, if_neg hempty, hdiv]
    by_cases hlt : 1 < wrap (m.mRowCount + 1)
    · rw [if_pos (Or.inl hlt), Nat.max_eq_right hlt.le]
    · rw [if_neg (by simpa using hlt), Nat.max_eq_left (Nat.le_of_not_lt hlt)]

theorem leaves_appendVector_iff (sizeofT : Nat) (hm : Owned m) (vector : List α) :
    Leaves (appendVector (.plenty sizeofT) m vector) ↔ Keeps m (.appendVector vector) := by
  simp only [Keeps]
  have hoff : m.mRowCount * m.mColCount < 2 ^ 64 := Nat.lt_of_le_of_lt hm.cells hm.fits
  by_cases hfits : m.mRowCount * m.mColCount + vector.length < 2 ^ 64
  · by_cases hcols : m.mColCount = 0
    · have hvector : vector.length < 2 ^ 64 := by omega
      obtain ⟨data, hlen, happend⟩ := appendVector_empty sizeofT hcols hvector
      rw [happend]
      by_cases hempty : vector.length = 0
      · rw [if_pos hempty]
        refine iff_of_false not_leaves_error fun h => (h.2 hcols).1 ?_
        exact List.length_eq_zero_iff.mp hempty
      · rw [if_neg hempty, leaves_ok]
        have hsome : vector ≠ [] := fun h => hempty (by rw [h]; rfl)
        constructor
        · intro h
          have hcells := h.cells
          rw [hlen] at hcells
          exact ⟨hfits, fun _ => ⟨hsome, hcells⟩⟩
        · intro h
          refine ⟨?_, ?_⟩
          · rw [hlen]
            exact (h.2 hcols).2
          · rw [hlen]
            exact grown_lt hm.fits (by omega)
    · obtain ⟨data, hcopy, hcopied⟩ := rawCopy_granted hcols (Nat.le_refl vector.length) hfits
        (granted_plenty sizeofT _ _) false
      have hlen := hcopied.length
      rw [appendVector, hcopy, leaves_ok]
      refine iff_of_true ⟨?_, ?_⟩ ⟨hfits, fun h => absurd h hcols⟩
      · simp only [rowsAfter, hlen]
        have hdiv : vector.length / m.mColCount * m.mColCount ≤ vector.length :=
          Nat.div_mul_le_self _ _
        have hle := size_le_grown m (m.mRowCount * m.mColCount + vector.length)
        split
        · rw [Nat.add_mul]
          omega
        · omega
      · rw [hlen]
        exact grown_lt hm.fits hfits
  · refine iff_of_false (fun hleaves => ?_) fun h => hfits h.1
    by_cases hcols : m.mColCount = 0
    · -- the size wraps around, and there is no room for the vector
      have hsize : 2 ^ 64 ≤ vector.length := by
        rw [hcols, Nat.mul_zero] at hfits
        omega
      obtain ⟨data, halloc, hlen, -⟩ := checkAlloc_granted
        (granted_plenty sizeofT m (wrap (vector.length : Nat)))
      have hlt : data.length < 2 ^ 64 := hlen ▸ grown_lt hm.fits (wrap_lt _)
      have hnone : (loads vector 0 vector.length).bind (stores data 0) = none := by
        rw [loads, if_pos (by omega), Option.bind_some, stores, if_neg]
        rw [List.length_take, List.length_drop]
        omega
      have hzero : wrap (0 : Nat) = 0 := rfl
      rw [appendVector, rawCopy, hcols, Nat.mul_zero, hzero, Nat.zero_add, halloc] at hleaves
      simp only [if_pos hcols, hnone] at hleaves
      exact not_leaves_error hleaves
    · rw [appendVector, rawCopy_outside hcols hm.fits hoff (Or.inr (Nat.le_of_not_lt hfits))
        (granted_plenty sizeofT _ _)] at hleaves
      exact not_leaves_error hleaves

theorem leaves_appendValue_iff (sizeofT : Nat) (hm : Owned m) (value : α) :
    Leaves (appendValue (.plenty sizeofT) m value) ↔ Keeps m (.appendValue value) := by
  simp only [Keeps, appendValue]
  by_cases hrows : 1 < m.mRowCount
  · rw [if_pos hrows]
    exact iff_of_true (leaves_ok.mpr (hm.setError _)) fun h => by omega
  · rw [if_neg hrows]
    obtain ⟨data, halloc, hlen, -⟩ := checkAlloc_granted
      (granted_plenty sizeofT { m with mRowCount := 1 } (wrap (m.mColCount + 1)))
    rw [halloc]
    by_cases hfits : m.mColCount + 1 < 2 ^ 64
    · have hwrap : wrap (m.mColCount + 1) = m.mColCount + 1 := wrap_of_lt hfits
      rw [hwrap] at hlen
      have hroom : m.mColCount + 1 ≤ data.length := hlen ▸ size_le_grown _ _
      obtain ⟨data', hdata', hlen', -⟩ := store_spec (k := m.mColCount) hroom value
      simp only [hdata', hwrap]
      refine iff_of_true (leaves_ok.mpr ⟨?_, ?_⟩) fun _ => hfits
      · change 1 * (m.mColCount + 1) ≤ data'.length
        omega
      · change data'.length < 2 ^ 64
        rw [hlen', hlen]
        exact grown_lt hm.fits hfits
    · have hlt : data.length < 2 ^ 64 := hlen ▸ grown_lt hm.fits (wrap_lt _)
      have hnone : store data m.mColCount value = none := if_neg (by omega)
      simp only [hnone]
      exact iff_of_false not_leaves_error fun h => hfits (h (by omega))

theorem leaves_castAppend_iff (sizeofT : Nat) (hm : Owned m) (vector : List α) :
    Leaves (castAppend (.plenty sizeofT) m vector) ↔ Keeps m (.castAppend vector) := by
  simp only [Keeps, castAppend]
  by_cases hcols : m.mColCount = 0
  · rw [if_pos hcols]
    exact iff_of_false not_leaves_error fun h => h.1 hcols
  · rw [if_neg hcols]
    by_cases hmultiple : vector.length % m.mColCount = 0
    · rw [if_neg (not_not.mpr hmultiple)]
      have hoff : m.mRowCount * m.mColCount < 2 ^ 64 := Nat.lt_of_le_of_lt hm.cells hm.fits
      obtain ⟨data, halloc, hlen, -⟩ := checkAlloc_granted (granted_plenty sizeofT m
        (wrap (m.mRowCount * m.mColCount + vector.length : Nat)))
      simp only [wrap_of_lt hoff, halloc]
      by_cases hfits : m.mRowCount * m.mColCount + vector.length < 2 ^ 64
      · rw [wrap_of_lt hfits] at hlen
        have hroom : m.mRowCount * m.mColCount + vector.length ≤ data.length :=
          hlen ▸ size_le_grown _ _
        obtain ⟨data', hdata', hlen', -⟩ := stores_spec hroom
        have hrows : m.mRowCount + vector.length / m.mColCount < 2 ^ 64 := by
          have hle : m.mRowCount ≤ m.mRowCount * m.mColCount :=
            Nat.le_mul_of_pos_right _ (Nat.pos_of_ne_zero hcols)
          have hdiv : vector.length / m.mColCount ≤ vector.length := Nat.div_le_self _ _
          omega
        simp only [hdata', wrap_of_lt hrows]
        refine iff_of_true (leaves_ok.mpr ⟨?_, ?_⟩) ⟨hcols, fun _ => hfits⟩
        · change (m.mRowCount + vector.length / m.mColCount) * m.mColCount ≤ data'.length
          rw [Nat.add_mul, Nat.div_mul_cancel (Nat.dvd_of_mod_eq_zero hmultiple), hlen']
          exact hroom
        · change data'.length < 2 ^ 64
          rw [hlen', hlen]
          exact grown_lt hm.fits hfits
      · have hlt : data.length < 2 ^ 64 := hlen ▸ grown_lt hm.fits (wrap_lt _)
        have hnone : stores data (m.mRowCount * m.mColCount) vector = none := if_neg (by omega)
        simp only [hnone]
        exact iff_of_false not_leaves_error fun h => hfits (h.2 hmultiple)
    · rw [if_pos hmultiple]
      exact iff_of_true (leaves_ok.mpr (hm.setError _)) ⟨hcols, fun h => absurd h hmultiple⟩

theorem leaves_identity_iff [Zero α] [One α] (sizeofT n : Nat) (m : TMatrix α) :
    Leaves (identity (.plenty sizeofT) m n) ↔ n * n < 2 ^ 64 := by
  have hsizes := owned_setSizes_iff sizeofT n n m
  obtain ⟨m', hm'⟩ : ∃ m', m' = (setSizes (.plenty sizeofT) m n n).2 := ⟨_, rfl⟩
  have hset : setSizes (.plenty sizeofT) m n n = (true, m') := by
    rw [hm']
    rfl
  rw [← hm'] at hsizes
  simp only [identity, hset]
  constructor
  · intro h
    refine hsizes.mp ?_
    cases hzeros : (List.range (wrap (m'.mRowCount * m'.mColCount : Nat))).foldlM
        (fun data i => store data i (0 : α)) m'.data with
    | none =>
      rw [hzeros] at h
      exact absurd h not_leaves_error
    | some zeros =>
      rw [hzeros, Option.bind_some] at h
      cases hones : (List.range n).foldlM
          (fun data i => store data (wrap (i * m'.mColCount + i : Nat)) (1 : α)) zeros with
      | none =>
        rw [hones] at h
        exact absurd h not_leaves_error
      | some ones =>
        rw [hones] at h
        have hlen : ones.length = m'.data.length :=
          (length_of_foldlM_store hones).trans (length_of_foldlM_store hzeros)
        have howned := leaves_ok.mp h
        exact ⟨hlen ▸ howned.cells, hlen ▸ howned.fits⟩
  · intro h
    have hcols : m'.mColCount = n := by
      rw [hm']
      rfl
    have hrows : m'.mRowCount = n := by
      rw [hm']
      rfl
    have howned := hsizes.mpr h
    have hlen : n * n ≤ m'.data.length := by
      have hcells := howned.cells
      rwa [hrows, hcols] at hcells
    have hloop : ∃ zeros, (List.range (n * n)).foldlM (fun data i => store data i (0 : α))
        m'.data = some zeros ∧ zeros.length = m'.data.length := by
      refine foldlM_range (fun _ (data : List α) => data.length = m'.data.length) rfl
        fun k hk data hdata => ?_
      have hlt : k < data.length := by omega
      obtain ⟨data', hstore, hlen', -⟩ := store_spec hlt (0 : α)
      exact ⟨data', hstore, hlen'.trans hdata⟩
    obtain ⟨zeros, hzeros, hzeroslen⟩ := hloop
    have hdiagonal : ∃ ones, (List.range n).foldlM
        (fun data i => store data (wrap (i * n + i : Nat)) (1 : α)) zeros = some ones ∧
        ones.length = m'.data.length := by
      refine foldlM_range (fun _ (data : List α) => data.length = m'.data.length) hzeroslen
        fun k hk data hdata => ?_
      have hcell : k * n + k < n * n := rowMajor_lt hk hk
      have hlt : k * n + k < data.length := by omega
      obtain ⟨data', hstore, hlen', -⟩ := store_spec hlt (1 : α)
      refine ⟨data', ?_, hlen'.trans hdata⟩
      rw [wrap_of_lt (by omega)]
      exact hstore
    obtain ⟨ones, hones, honeslen⟩ := hdiagonal
    rw [hrows, hcols, wrap_of_lt h, hzeros, Option.bind_some, hones]
    refine leaves_ok.mpr ⟨?_, honeslen ▸ howned.fits⟩
    change n * n ≤ ones.length
    rwa [honeslen]

/-- A call keeps the cells exactly when it meets its condition. -/
theorem step_keeps_iff [Zero α] [One α] (sizeofT : Nat) (hm : Owned m) (call : Call α) :
    (∃ t, step (.plenty sizeofT) m call = .ok t ∧ Owned t) ↔ Keeps m call := by
  cases call with
  | setSizes rows cols =>
    refine Iff.trans ?_ (owned_setSizes_iff sizeofT rows cols m)
    simp only [step]
    constructor
    · rintro ⟨t, heq, ht⟩
      obtain rfl := Except.ok.inj heq
      exact ht
    · exact fun h => ⟨_, rfl, h⟩
  | copy other startRow endRow =>
    exact exists_map_snd.trans (leaves_copyAt_iff sizeofT hm 0 other startRow endRow true)
  | copyAt row other startRow endRow resize =>
    exact exists_map_snd.trans (leaves_copyAt_iff sizeofT hm row other startRow endRow resize)
  | appendValue value => exact exists_map_snd.trans (leaves_appendValue_iff sizeofT hm value)
  | appendVector vector => exact exists_map_snd.trans (leaves_appendVector_iff sizeofT hm vector)
  | appendMatrix other startRow endRow =>
    exact exists_map_snd.trans
      (leaves_copyAt_iff sizeofT hm (Int32.ofNat m.mRowCount) other startRow endRow false)
  | castAppend vector => exact exists_map_snd.trans (leaves_castAppend_iff sizeofT hm vector)
  | identity n => exact exists_map_snd.trans (leaves_identity_iff sizeofT n m)

end Calls

/-! ## Runs -/

section Runs

variable [Inhabited α] [Zero α] [One α]

omit [Zero α] [One α] in
theorem owned_build_iff (sizeofT : Nat) (c : Constructor) :
    Owned (c.build (.plenty sizeofT) : TMatrix α) ↔ c.Fits := by
  cases c with
  | empty => exact iff_of_true ⟨Nat.le_refl _, Nat.two_pow_pos 64⟩ trivial
  | sizes rows cols => exact owned_setSizes_iff sizeofT rows cols ⟨[], rows, cols, "no error"⟩

/-- When all allocations succeed, a matrix owns the cells that it claims, and all operations are
defined, exactly as long as the calls meet their conditions. -/
theorem owns_cells_iff (sizeofT : Nat) (c : Constructor) (calls : List (Call α)) :
    (Owned (c.build (.plenty sizeofT) : TMatrix α) ∧
      Safe (step (.plenty sizeofT)) Owned (c.build (.plenty sizeofT) : TMatrix α) calls) ↔
    c.Fits ∧ Meets (step (.plenty sizeofT)) Keeps (c.build (.plenty sizeofT)) calls := by
  rw [owned_build_iff]
  refine and_congr_right fun hfits => ?_
  have hstep : ∀ (m : TMatrix α) call, Owned m →
      ((∃ t, step (.plenty sizeofT) m call = .ok t ∧ Owned t) ↔ Keeps m call) :=
    fun m call hm => step_keeps_iff sizeofT hm call
  have hkept : ∀ (m : TMatrix α) call t, Owned m → step (.plenty sizeofT) m call = .ok t →
      Owned t → Owned t := fun _ _ _ _ _ ht => ht
  exact safe_iff_meets hstep hkept ((owned_build_iff sizeofT c).mpr hfits) calls

/-- A vector of two values. -/
def pair : OwnedMatrix Int := ⟨⟨[7, 8], 1, 2, "no error"⟩, ⟨by decide, by decide⟩⟩

/-- The first row of a column of twenty values gets a second column: the matrix claims 40 cells of
the 20 that it owns.  And appending an empty vector to a new matrix divides by zero. -/
theorem copied_row_claims_more :
    ¬ (∀ (c : Constructor) (calls : List (Call Int)),
      Safe (step (.plenty 4)) Owned (c.build (.plenty 4) : TMatrix Int) calls) ∧
    step (.plenty 4) (Constructor.build (.plenty 4) .empty : TMatrix Int) (.appendVector []) =
      .error .divisionByZero := by
  refine ⟨fun h => ?_, rfl⟩
  obtain ⟨t, ht, howned, -⟩ := h (.sizes 20 1) [.copyAt 0 pair 0 (-1) false]
  have heq : step (.plenty 4) (Constructor.build (.plenty 4) (.sizes 20 1) : TMatrix Int)
      (.copyAt 0 pair 0 (-1) false) =
      .ok ⟨7 :: 8 :: List.replicate 18 0, 20, 2, "no error"⟩ := by decide
  obtain rfl := Except.ok.inj (heq.symm.trans ht)
  exact absurd howned.cells (by decide)

end Runs

end Rubyk.TMatrix.SizeT
