/-
  Core/BufferStream.lean --- a `Buffer` that is filled value by value.

  The nodes that fill a `Buffer` hold the row that `advance` returned and an index into
  it.  Each value goes to the cell at the index; after the last cell of the row they
  move forward.  So the window has the last complete vectors of the stream, however the
  values arrived.

  `Fills` is the invariant, for a stream without end of which some values have come.
-/
import Rubyk.Core.Buffer

set_option autoImplicit false

namespace Rubyk

open Lib

/-- A buffer and the next cell to write to. -/
structure BufferStream (α : Type) where
  mBuffer : Buffer α
  /-- the first cell of the row that is filled -/
  mVector : Option Nat
  mIndex : Nat
  deriving DecidableEq, Repr

namespace BufferStream

variable {α : Type} [Inhabited α]

/-- `mVector[mIndex] = x; mIndex++;`, and on to the next row at the end of this one. -/
def put (s : BufferStream α) (x : α) : Option (BufferStream α) := do
  let vector ← s.mVector
  let b ← s.mBuffer.write (vector + s.mIndex) [x]
  if b.mBuffer.mColCount ≤ s.mIndex + 1 then
    let (vector, b) ← b.advance
    some ⟨b, vector, 0⟩
  else some ⟨b, vector, s.mIndex + 1⟩

/-! ## Vectors of a stream -/

/-- Vector `k` of the stream, from 1 on; those before the first one are 0. -/
def vector [Zero α] (C : Nat) (f : Nat → α) (k : Int) (j : Nat) : α :=
  if k ≤ 0 then 0 else f ((k.toNat - 1) * C + j)

/-- The last `W` vectors when `n` are complete. -/
def lastVectors [Zero α] (W C : Nat) (f : Nat → α) (n : Nat) : List (List α) :=
  (List.range W).map fun i : Nat => (List.range C).map (vector C f ((n + 1 : Nat) - W + i))

section Rules

variable {b : Buffer α} {W C n first r : Nat} {w : Int → Nat → α}

omit [Inhabited α] in
/-- Writing one cell of the row that is filled: the rows of the window and the copies stay. -/
theorem write_cell (h : b.Shows W C w n first r) {j : Nat} (hj : j < C) (x : α) :
    ∃ b', b.write (C * r + j) [x] = some b' ∧ b'.Shows W C w n first r ∧
      b'.mBuffer.mColCount = C ∧
      ∀ l < C, b'.mBuffer.data[r * C + l]? =
        if l = j then some x else b.mBuffer.data[r * C + l]? := by
  obtain ⟨v, hv, hrows, hlast, hcopied⟩ := h.rows
  have hfits : r * C + j + [x].length ≤ b.mBuffer.data.length := by
    have hrow : r * C + C ≤ 5 * W * C := TMatrix.row_end_le h.high
    have hsize := hv.size_le
    simp only [List.length_singleton]
    omega
  obtain ⟨data, hdata, -, hcells⟩ := stores_spec hfits
  -- the cells of the other rows
  have hother (i : Nat) (hi : i < 5 * W) (hne : i ≠ r) (l : Nat) (hl : l < C) :
      data[i * C + l]? = some (v i l) := by
    have hout : ¬ (r * C + j ≤ i * C + l ∧ i * C + l < r * C + j + [x].length) := by
      rintro ⟨hle, hlt⟩
      have heq : i * C + l = r * C + j := by simp only [List.length_singleton] at hlt; omega
      exact hne ((rowMajor_inj hl hj).mp heq).1
    rw [hcells, if_neg hout, hv.cell i hi l hl]
  have hrow (l : Nat) : data[r * C + l]? =
      if l = j then some x else b.mBuffer.data[r * C + l]? := by
    rw [hcells]
    by_cases hl : l = j
    · subst hl
      rw [if_pos (by simp), if_pos rfl, Nat.sub_self]
      rfl
    · have hout : ¬ (r * C + j ≤ r * C + l ∧ r * C + l < r * C + j + [x].length) := by
        rintro ⟨hle, hlt⟩
        simp only [List.length_singleton] at hlt
        omega
      rw [if_neg hout, if_neg hl]
  have hlow := h.low
  have hhigh := h.high
  have hapart := h.apart
  have hend := h.windowEnd
  refine ⟨{ b with mBuffer := { b.mBuffer with data := data } }, ?_, ?_, hv.colCount,
    fun l _ => hrow l⟩
  · rw [Buffer.write, Nat.mul_comm C r, hdata]
    rfl
  · obtain ⟨v', hv'⟩ : ∃ v' : Nat → Nat → α, ∀ i l,
        v' i l = if i = r ∧ l = j then x else v i l := ⟨_, fun _ _ => rfl⟩
    have hsame (i l : Nat) (hi : i ≠ r) : v' i l = v i l := by
      rw [hv', if_neg fun hboth => hi hboth.1]
    refine ⟨h.window, h.windowSize, h.writeRow, hend, hlow, hhigh, hapart, v',
      ⟨hv.rowCount, hv.colCount, fun i hi l hl => ?_⟩, fun i hi l hl => ?_,
      fun d hd hdW l hl => ?_, fun i hi hir l hl => ?_⟩
    · by_cases hir : i = r
      · subst hir
        change data[i * C + l]? = _
        rw [hrow, hv', hv.cell i hi l hl]
        by_cases hlj : l = j
        · rw [if_pos hlj, if_pos ⟨rfl, hlj⟩]
        · rw [if_neg hlj, if_neg fun hboth => hlj hboth.2]
      · rw [hsame i l hir]
        exact hother i hi hir l hl
    · rw [hsame _ l (by omega)]
      exact hrows i hi l hl
    · rw [hsame _ l (by omega)]
      exact hlast d hd hdW l hl
    · rw [hsame _ l (by omega)]
      exact hcopied i hi hir l hl

omit [Inhabited α] in
/-- When all cells of the row are those of vector `n`, that vector has been added. -/
theorem slides_of_row (h : b.Shows W C w n first r)
    (hrow : ∀ l < C, b.mBuffer.data[r * C + l]? = some (w n l)) : b.Slides W C w n := by
  obtain ⟨v, hv, -, hlast, hcopied⟩ := h.rows
  refine ⟨h.windowSize, by rw [h.window], by rw [h.window], h.writeRow ▸ h.low,
    h.writeRow ▸ h.high, v, hv, fun d hd l hl => ?_, ?_⟩
  · rw [h.writeRow]
    rcases Nat.eq_zero_or_pos d with rfl | hpos
    · have hcell := (hv.cell r h.high l hl).symm.trans (hrow l hl)
      simpa using hcell
    · exact hlast d hpos hd l hl
  · rw [h.writeRow]
    exact hcopied

end Rules

/-! ## The invariant -/

section Fills

variable [Zero α] {s : BufferStream α} {W C m : Nat} {f : Nat → α}

/-- The first `m` values of the stream `f` have come. -/
structure Fills (s : BufferStream α) (W C : Nat) (f : Nat → α) (m : Nat) : Prop where
  index : s.mIndex = m % C
  shows : ∃ first r, s.mVector = some (C * r) ∧
    s.mBuffer.Shows W C (vector C f) (m / C + 1) first r ∧
      ∀ l < m % C, s.mBuffer.mBuffer.data[r * C + l]? = some (f (m / C * C + l))

omit [Inhabited α] in
theorem vector_succ (C : Nat) (f : Nat → α) (n j : Nat) :
    vector C f (n + 1 : Nat) j = f (n * C + j) := by
  rw [vector, if_neg (by omega), Int.toNat_natCast, Nat.add_sub_cancel]

omit [Inhabited α] in
theorem vector_congr {C n : Nat} {f f' : Nat → α} (hf : ∀ i < n * C, f i = f' i) {k : Int}
    (hk : k ≤ n) {j : Nat} (hj : j < C) : vector C f k j = vector C f' k j := by
  unfold vector
  split
  · rfl
  · have hle : (k.toNat - 1 + 1) * C ≤ n * C := Nat.mul_le_mul_right C (by omega)
    rw [Nat.succ_mul] at hle
    exact hf _ (by omega)

omit [Inhabited α] in
/-- Complete vectors do not depend on what comes after them. -/
theorem lastVectors_congr {C n : Nat} {f f' : Nat → α} (hf : ∀ i < n * C, f i = f' i) (W : Nat) :
    lastVectors W C f n = lastVectors W C f' n := by
  refine List.map_congr_left fun i hi => List.map_congr_left fun j hj => ?_
  have hi := List.mem_range.mp hi
  exact vector_congr hf (by omega) (List.mem_range.mp hj)

/-- Moving forward after a complete vector. -/
theorem fills_of_advance {b : Buffer α} (h : b.Slides W C (vector C f) (m / C)) (hW : 1 ≤ W)
    (hC : 1 ≤ C) (hm : m % C = 0) :
    ∃ cell b', b.advance = some (some cell, b') ∧ Fills ⟨b', some cell, 0⟩ W C f m := by
  obtain ⟨first, r, b', hadvance, hshows⟩ := h.advance_shows hW hC
  exact ⟨C * r, b', hadvance, hm.symm, first, r, rfl, hshows, by simp [hm]⟩

omit [Inhabited α] in
/-- Writing the next value; the row has all values from the first of the vector to this one. -/
theorem Fills.write_next (h : s.Fills W C f m) (hC : 1 ≤ C) :
    ∃ first r b', s.mVector = some (C * r) ∧
      s.mBuffer.write (C * r + s.mIndex) [f m] = some b' ∧
      b'.Shows W C (vector C f) (m / C + 1) first r ∧ b'.mBuffer.mColCount = C ∧
      ∀ l < m % C + 1, b'.mBuffer.data[r * C + l]? = some (f (m / C * C + l)) := by
  obtain ⟨hindex, first, r, hvector, hshows, hrow⟩ := h
  have hlt : m % C < C := Nat.mod_lt m hC
  obtain ⟨b', hwrite, hshows', hcols, hcells⟩ := write_cell hshows hlt (f m)
  rw [← hindex] at hwrite
  refine ⟨first, r, b', hvector, hwrite, hshows', hcols, fun l hl => ?_⟩
  rw [hcells l (by omega)]
  split
  · rename_i heq
    rw [heq, Nat.div_add_mod' m C]
  · exact hrow l (by omega)

omit [Inhabited α] in
/-- The next value is not the last one of its vector. -/
theorem Fills.put_cell (h : s.Fills W C f m) (hC : 1 ≤ C) (hmore : m % C + 1 < C) :
    ∃ cell b', s.mVector = some cell ∧ s.mBuffer.write (cell + s.mIndex) [f m] = some b' ∧
      b'.mBuffer.mColCount = C ∧ Fills ⟨b', some cell, s.mIndex + 1⟩ W C f (m + 1) := by
  obtain ⟨first, r, b', hvector, hwrite, hshows, hcols, hcells⟩ := h.write_next hC
  have hlt : m % C < C := Nat.mod_lt m hC
  have hsplit : m / C * C + m % C = m := Nat.div_add_mod' m C
  have hdiv : (m + 1) / C = m / C := by
    rw [← hsplit, Nat.add_assoc, Nat.add_comm, Nat.add_mul_div_right _ _ hC,
      Nat.div_eq_of_lt hmore, Nat.zero_add, Nat.add_comm, Nat.add_mul_div_right _ _ hC,
      Nat.div_eq_of_lt hlt, Nat.zero_add]
  have hmod : (m + 1) % C = m % C + 1 := by
    rw [Nat.add_mod, Nat.mod_eq_of_lt (a := 1) (by omega), Nat.mod_eq_of_lt hmore]
  refine ⟨C * r, b', hvector, hwrite, hcols, ?_, first, r, rfl, hdiv ▸ hshows, fun l hl => ?_⟩
  · rw [h.index, hmod]
  · rw [hdiv]
    exact hcells l (by rwa [hmod] at hl)

/-- The next value is the last one of its vector. -/
theorem Fills.put_row (h : s.Fills W C f m) (hW : 1 ≤ W) (hC : 1 ≤ C) (hfull : m % C + 1 = C) :
    ∃ cell b' cell' b'', s.mVector = some cell ∧
      s.mBuffer.write (cell + s.mIndex) [f m] = some b' ∧ b'.mBuffer.mColCount = C ∧
      loads b'.mBuffer.data cell C = some ((List.range C).map fun l => f (m / C * C + l)) ∧
      b'.advance = some (some cell', b'') ∧ Fills ⟨b'', some cell', 0⟩ W C f (m + 1) := by
  obtain ⟨first, r, b', hvector, hwrite, hshows, hcols, hcells⟩ := h.write_next hC
  have hsucc : m + 1 = (m / C + 1) * C := by
    have hsplit : m / C * C + m % C = m := Nat.div_add_mod' m C
    rw [Nat.succ_mul]
    omega
  have hdiv : (m + 1) / C = m / C + 1 := by rw [hsucc, Nat.mul_div_cancel _ hC]
  have hmod : (m + 1) % C = 0 := by rw [hsucc, Nat.mul_mod_left]
  rw [hfull] at hcells
  have hslides : b'.Slides W C (vector C f) ((m + 1) / C) := by
    rw [hdiv]
    refine slides_of_row hshows fun l hl => ?_
    rw [vector_succ]
    exact hcells l hl
  obtain ⟨cell', b'', hadvance, hfills⟩ := fills_of_advance hslides hW hC hmod
  refine ⟨C * r, b', cell', b'', hvector, hwrite, hcols, ?_, hadvance, hfills⟩
  obtain ⟨v, hv, -⟩ := hshows.rows
  have hfits : C * r + C ≤ b'.mBuffer.data.length := by
    rw [Nat.mul_comm]
    exact Nat.le_trans (TMatrix.row_end_le hshows.high) hv.size_le
  obtain ⟨xs, hxs, hlen, hget⟩ := loads_spec hfits
  rw [hxs]
  congr 1
  refine List.ext_getElem? fun l => ?_
  by_cases hl : l < C
  · rw [hget l hl, Nat.mul_comm C r, hcells l hl]
    simp [hl]
  · rw [List.getElem?_eq_none (by omega), List.getElem?_eq_none (by simp; omega)]

/-- One value. -/
theorem Fills.put_fills (h : s.Fills W C f m) (hW : 1 ≤ W) (hC : 1 ≤ C) :
    ∃ s', s.put (f m) = some s' ∧ s'.Fills W C f (m + 1) := by
  have hindex := h.index
  rcases Nat.lt_or_eq_of_le (Nat.succ_le_of_lt (Nat.mod_lt m hC)) with hmore | hfull
  · obtain ⟨cell, b', hvector, hwrite, hcols, hfills⟩ := h.put_cell hC hmore
    have hnot : ¬ C ≤ s.mIndex + 1 := by omega
    exact ⟨_, by simp only [put, hvector, Option.bind_eq_bind, Option.bind_some, hwrite, hcols,
      if_neg hnot], hfills⟩
  · obtain ⟨cell, b', cell', b'', hvector, hwrite, hcols, -, hadvance, hfills⟩ :=
      h.put_row hW hC hfull
    have hend : C ≤ s.mIndex + 1 := by omega
    exact ⟨_, by simp only [put, hvector, Option.bind_eq_bind, Option.bind_some, hwrite, hcols,
      if_pos hend, hadvance], hfills⟩

/-- Any number of values. -/
theorem Fills.puts_fills (h : s.Fills W C f m) (hW : 1 ≤ W) (hC : 1 ≤ C) {xs : List α}
    (hxs : ∀ i < xs.length, xs[i]? = some (f (m + i))) :
    ∃ s', xs.foldlM put s = some s' ∧ s'.Fills W C f (m + xs.length) := by
  induction xs generalizing s m with
  | nil => exact ⟨s, rfl, h⟩
  | cons x xs ih =>
    obtain rfl : x = f m := by simpa using hxs 0 (by simp)
    obtain ⟨s₁, hput, hfills⟩ := h.put_fills hW hC
    obtain ⟨s', hrest, hfills'⟩ := ih hfills fun i hi => by
      have hi' := hxs (i + 1) (by simpa using hi)
      rw [Nat.add_assoc, Nat.add_comm 1 i]
      simpa using hi'
    refine ⟨s', by rw [List.foldlM_cons, hput]; exact hrest, ?_⟩
    rw [List.length_cons, Nat.add_comm xs.length, ← Nat.add_assoc]
    exact hfills'

omit [Inhabited α] in
/-- Values that have not come yet do not matter. -/
theorem Fills.congr (h : s.Fills W C f m) {f' : Nat → α} (hf : ∀ i < m, f' i = f i) :
    s.Fills W C f' m := by
  obtain ⟨hindex, first, r, hvector, hshows, hrow⟩ := h
  have hsplit : m / C * C + m % C = m := Nat.div_add_mod' m C
  have hcell (k : Int) (hk : k ≤ (m / C : Nat)) (j : Nat) (hj : j < C) :
      vector C f k j = vector C f' k j :=
    vector_congr (fun i hi => (hf i (by omega)).symm) hk hj
  obtain ⟨v, hv, hrows, hlast, hcopied⟩ := hshows.rows
  refine ⟨hindex, first, r, hvector, ⟨hshows.window, hshows.windowSize, hshows.writeRow,
    hshows.windowEnd, hshows.low, hshows.high, hshows.apart, v, hv, fun i hi j hj => ?_,
    fun d hd hdW j hj => ?_, fun i hi hir j hj => ?_⟩, fun l hl => ?_⟩
  · rw [hrows i hi j hj]
    exact hcell _ (by omega) j hj
  · rw [hlast d hd hdW j hj]
    exact hcell _ (by omega) j hj
  · rw [hcopied i hi hir j hj]
    exact hcell _ (by omega) j hj
  · rw [hrow l hl, hf _ (by omega)]

omit [Inhabited α] in
/-- The window has the last complete vectors. -/
theorem Fills.matrix_eq (h : s.Fills W C f m) :
    s.mBuffer.matrix = some (lastVectors W C f (m / C)) := by
  obtain ⟨-, first, r, -, hshows, -⟩ := h
  have hlen (k : Int) : ((List.range C).map (vector C f k)).length = C := by simp
  exact hshows.matrix_eq hlen fun k j hj => by simp [hj]

omit [Inhabited α] in
theorem getElem?_flatten_rows {rows : List (List α)} (hrows : ∀ row ∈ rows, row.length = C)
    {j : Nat} (hj : j < C) (k : Nat) :
    (rows.flatten[k * C + j]?).getD 0 = ((rows[k]?).bind (·[j]?)).getD 0 := by
  induction rows generalizing k with
  | nil => rfl
  | cons row rows ih =>
    have hlen := hrows row List.mem_cons_self
    cases k with
    | zero =>
      rw [List.flatten_cons, List.getElem?_append_left (by omega)]
      simp
    | succ k =>
      have hindex : (k + 1) * C + j - row.length = k * C + j := by
        rw [Nat.succ_mul, hlen]
        omega
      have hge : row.length ≤ (k + 1) * C + j := by
        rw [Nat.succ_mul, hlen]
        omega
      rw [List.flatten_cons, List.getElem?_append_right hge, hindex,
        ih (fun r hr => hrows r (List.mem_cons_of_mem row hr)), List.getElem?_cons_succ]

omit [Inhabited α] in
/-- When the stream came in rows, the window has the last of them. -/
theorem lastVectors_flatten {rows : List (List α)} (hrows : ∀ row ∈ rows, row.length = C)
    (W : Nat) :
    lastVectors W C (fun i => (rows.flatten[i]?).getD 0) rows.length =
      (List.replicate W (List.replicate C 0) ++ rows).drop rows.length := by
  refine List.ext_getElem (by simp [lastVectors]) fun i hi hi' => ?_
  have hi : i < W := by simpa [lastVectors] using hi
  have hrow : ∃ row, (List.replicate W (List.replicate C (0 : α)) ++ rows)[rows.length + i]? =
      some row ∧ row.length = C ∧ ∀ j < C, (row[j]?).getD 0 =
        vector C (fun i => (rows.flatten[i]?).getD 0) ((rows.length + 1 : Nat) - W + i) j := by
    rcases Nat.lt_or_ge (rows.length + i) W with hbefore | hafter
    · refine ⟨List.replicate C 0, ?_, List.length_replicate, fun j hj => ?_⟩
      · rw [List.getElem?_append_left (by simpa using hbefore)]
        simp [hbefore]
      · rw [vector, if_pos (by omega)]
        simp [hj]
    · have hlt : rows.length + i - W < rows.length := by omega
      refine ⟨rows[rows.length + i - W], ?_, hrows _ (List.getElem_mem hlt), fun j hj => ?_⟩
      · rw [List.getElem?_append_right (by simpa using hafter), List.length_replicate,
          List.getElem?_eq_getElem hlt]
      · have hk : (((rows.length + 1 : Nat) : Int) - W + i).toNat - 1 = rows.length + i - W := by
          omega
        rw [vector, if_neg (by omega), hk, getElem?_flatten_rows hrows hj,
          List.getElem?_eq_getElem hlt]
        rfl
  obtain ⟨row, hget, hlen, hcells⟩ := hrow
  have hright :
      ((List.replicate W (List.replicate C (0 : α)) ++ rows).drop rows.length)[i] = row := by
    rw [List.getElem_drop]
    exact Option.some.inj ((List.getElem?_eq_getElem _).symm.trans hget)
  rw [hright]
  refine List.ext_getElem (by simp [lastVectors, hlen]) fun j hj hj' => ?_
  have hjC : j < C := hlen ▸ hj'
  have hcell := hcells j hjC
  rw [List.getElem?_eq_getElem hj', Option.getD_some] at hcell
  rw [hcell]
  simp [lastVectors]

/-- A new buffer and its first row. -/
theorem setSizes_fills (b : Buffer α) (f : Nat → α) (hW : 1 ≤ W) (hC : 1 ≤ C) :
    ∃ b₀ cell b₁, b.setSizes W C = some b₀ ∧ b₀.mWindowSize = W ∧ b₀.mBuffer.mColCount = C ∧
      b₀.advance = some (some cell, b₁) ∧ Fills ⟨b₁, some cell, 0⟩ W C f 0 := by
  have hzero : ∀ k ≤ 0, ∀ j, vector C f k j = 0 := fun k hk j => if_pos hk
  obtain ⟨b₀, hsizes, hslides⟩ := b.setSizes_slides hW hzero
  have hzerodiv : 0 / C = 0 := Nat.zero_div C
  obtain ⟨v, hv, -⟩ := hslides.rows
  obtain ⟨cell, b₁, hadvance, hfills⟩ :=
    fills_of_advance (m := 0) (hzerodiv.symm ▸ hslides) hW hC (Nat.zero_mod C)
  exact ⟨b₀, cell, b₁, hsizes, hslides.windowSize, hv.colCount, hadvance, hfills⟩

end Fills

end BufferStream

end Rubyk
