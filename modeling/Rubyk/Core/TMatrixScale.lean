/-
  Core/TMatrixScale.lean --- `add`, `multiply` and `divide` of
  `src/core/off/tmatrix.cpp`: a matrix and the cells of another one.

  Each operation has four shapes, and in three of them a loop for the scale 1.0, one for
  -1.0 and one for all others.  They should all follow one formula: `o` is the cell of
  the other matrix that belongs to a cell, and the scale multiplies it
  (`MatrixOp.formula`).  `add` does; `multiply` and `divide` forget the sign of the scale
  -1.0 where the other matrix is a vector for all rows, or has a value for each row
  (`SignLost`, `follows_formula_iff`).

  Values are rational numbers, and the other matrix does not share data with the first.
-/
import Mathlib.Algebra.Field.Rat
import Mathlib.Algebra.Order.Ring.Rat
import Mathlib.Tactic.Linarith
import Rubyk.Core.TMatrix

set_option autoImplicit false

namespace Rubyk

open Lib

/-- What the three loops of a shape make of a cell and a cell of the other matrix. -/
structure ScaleCases where
  /-- `pScale == 1.0` -/
  one : ℚ → ℚ → ℚ
  /-- `pScale == -1.0` -/
  minusOne : ℚ → ℚ → ℚ
  scaled : ℚ → ℚ → ℚ → ℚ

def ScaleCases.apply (c : ScaleCases) (scale x o : ℚ) : ℚ :=
  if scale = 1 then c.one x o
  else if scale = -1 then c.minusOne x o
  else c.scaled scale x o

/-- An operation on all cells: the loops for its shapes. -/
structure Elementwise where
  name : String
  /-- one to one -/
  oneToOne : ScaleCases
  /-- the same vector for each row -/
  vector : ScaleCases
  /-- a different value for each row -/
  column : ScaleCases
  /-- the operator with a scalar -/
  scalar : ℚ → ℚ → ℚ

namespace TMatrix

/-- The loops over rows and columns: `index` is the index in the other data. -/
def updateCells (m : TMatrix ℚ) (otherData : List ℚ) (index : Nat → Nat → Nat)
    (f : ℚ → ℚ → ℚ) : Option (List ℚ) :=
  (List.range m.mRowCount).foldlM (fun data i =>
    (List.range m.mColCount).foldlM (fun data j => do
      let x ← data[i * m.mColCount + j]?
      let o ← otherData[index i j]?
      store data (i * m.mColCount + j) (f x o)) data) m.data

/-- The loop of an operator with a scalar. -/
def updateAll (m : TMatrix ℚ) (value : ℚ) (f : ℚ → ℚ → ℚ) : Option (List ℚ) :=
  (List.range (m.mRowCount * m.mColCount)).foldlM (fun data i => do
    let x ← data[i]?
    store data i (f x value)) m.data

/-- What `add`, `divide` and `multiply` have in common. -/
def elementwise (e : Elementwise) (m other : TMatrix ℚ) (startRow endRow : Int) (scale : ℚ) :
    Option (Bool × TMatrix ℚ) :=
  match m.checkSizes e.name other startRow endRow true with
  | .undefined => none
  | .error text => some (false, m.setError text)
  | .rows first last =>
      let rowCount : Int := last - first + 1
      let otherData := other.data.drop (first * other.mColCount)
      let sizes := s!"source matrix {rowCount}x{other.mColCount}, " ++
        s!"target matrix {m.mRowCount}x{m.mColCount}"
      if other.mColCount = m.mColCount then
        if rowCount = m.mRowCount then do
          let data ← m.updateCells otherData (fun i j => i * m.mColCount + j)
            (e.oneToOne.apply scale)
          some (true, { m with data := data })
        else if rowCount = 1 then do
          let data ← m.updateCells otherData (fun _ j => j) (e.vector.apply scale)
          some (true, { m with data := data })
        else some (false, m.setError s!"size error ({e.name}): {sizes} (bad vector count)")
      else if other.mColCount = 1 ∧ rowCount = m.mRowCount then do
        let data ← m.updateCells otherData (fun i _ => i) (e.column.apply scale)
        some (true, { m with data := data })
      else if other.mColCount = 1 ∧ rowCount = 1 then do
        let o ← otherData[0]?
        let data ← m.updateAll (scale * o) e.scalar
        some (true, { m with data := data })
      else some (false, m.setError s!"size error ({e.name}): {sizes} (incomptable)")

/-- The loops of `add`. -/
def addLoops : Elementwise where
  name := "add"
  oneToOne := ⟨fun x o => x + o, fun x o => x - o, fun s x o => x + s * o⟩
  vector := ⟨fun x o => x + o, fun x o => x - o, fun s x o => x + s * o⟩
  column := ⟨fun x o => x + o, fun x o => x - o, fun s x o => x + s * o⟩
  scalar := fun x y => x + y

/-- The loops of `divide`. -/
def divideLoops : Elementwise where
  name := "divide"
  oneToOne := ⟨fun x o => x / o, fun x o => x / -o, fun s x o => x / (s * o)⟩
  vector := ⟨fun x o => x / o, fun x o => x / o, fun s x o => x / (s * o)⟩
  column := ⟨fun x o => x / o, fun x o => x / o, fun s x o => x / (s * o)⟩
  scalar := fun x y => x / y

/-- The loops of `multiply`. -/
def multiplyLoops : Elementwise where
  name := "multiply"
  oneToOne := ⟨fun x o => x * o, fun x o => x * -o, fun s x o => x * (s * o)⟩
  vector := ⟨fun x o => x * o, fun x o => x * o, fun s x o => x * (s * o)⟩
  column := ⟨fun x o => x * o, fun x o => x * o, fun s x o => x * (s * o)⟩
  scalar := fun x y => x * y

/-- `add`. -/
def add : TMatrix ℚ → TMatrix ℚ → Int → Int → ℚ → Option (Bool × TMatrix ℚ) :=
  elementwise addLoops

/-- `divide`. -/
def divide : TMatrix ℚ → TMatrix ℚ → Int → Int → ℚ → Option (Bool × TMatrix ℚ) :=
  elementwise divideLoops

/-- `multiply`. -/
def multiply : TMatrix ℚ → TMatrix ℚ → Int → Int → ℚ → Option (Bool × TMatrix ℚ) :=
  elementwise multiplyLoops

/-! ## The loops -/

section Loops

variable {m other : TMatrix ℚ} {r c r' c' : Nat} {v o : Nat → Nat → ℚ}

theorem Describes.updateCells_spec (h : m.Describes r c v) {otherData : List ℚ}
    {index : Nat → Nat → Nat} {x : Nat → Nat → ℚ}
    (hother : ∀ i < r, ∀ j < c, otherData[index i j]? = some (x i j)) (f : ℚ → ℚ → ℚ) :
    ∃ data, m.updateCells otherData index f = some data ∧
      { m with data := data }.Describes r c fun i j => f (v i j) (x i j) := by
  -- below the count the cells are new, and from it on they are as they were
  let done : Nat → List ℚ → Prop := fun k data => data.length = m.data.length ∧
    ∀ i < r, ∀ j < c, data[i * c + j]? =
      some (if i * c + j < k then f (v i j) (x i j) else v i j)
  have hfirst : done 0 m.data := ⟨rfl, fun i hi j hj => by simpa using h.cell i hi j hj⟩
  obtain ⟨data, hdata, -, hcells⟩ : ∃ data, m.updateCells otherData index f = some data ∧
      done (r * c) data := by
    rw [updateCells, h.rowCount, h.colCount]
    refine foldlM_rows done hfirst fun i hi j hj data hdone => ?_
    have hlt : i * c + j < data.length := by
      rw [hdone.1]
      exact Nat.lt_of_lt_of_le (rowMajor_lt hi hj) h.size_le
    obtain ⟨data', hstore, hlen, hcell⟩ := store_spec hlt (f (v i j) (x i j))
    refine ⟨data', ?_, hlen.trans hdone.1, fun k hk l hl => ?_⟩
    · rw [hdone.2 i hi j hj, if_neg (Nat.lt_irrefl _), hother i hi j hj]
      exact hstore
    · rw [hcell, hdone.2 k hk l hl]
      by_cases heq : k * c + l = i * c + j
      · obtain ⟨rfl, rfl⟩ := (rowMajor_inj hl hj).mp heq
        simp
      · have hiff : k * c + l < i * c + j + 1 ↔ k * c + l < i * c + j := by omega
        simp only [if_neg heq, hiff]
  refine ⟨data, hdata, h.rowCount, h.colCount, fun i hi j hj => ?_⟩
  rw [hcells i hi j hj, if_pos (rowMajor_lt hi hj)]

theorem Describes.updateAll_spec (h : m.Describes r c v) (value : ℚ) (f : ℚ → ℚ → ℚ) :
    ∃ data, m.updateAll value f = some data ∧
      { m with data := data }.Describes r c fun i j => f (v i j) value := by
  have hsize := h.size_le
  let done : Nat → List ℚ → Prop := fun k data => data.length = m.data.length ∧
    ∀ l : Nat, data[l]? = if l < k then m.data[l]?.map (f · value) else m.data[l]?
  obtain ⟨data, hdata, -, hcells⟩ : ∃ data, m.updateAll value f = some data ∧
      done (r * c) data := by
    rw [updateAll, h.rowCount, h.colCount]
    refine foldlM_range done ⟨rfl, fun l => by simp⟩ fun k hk data hdone => ?_
    have hlt : k < m.data.length := Nat.lt_of_lt_of_le hk hsize
    have hcell : data[k]? = some m.data[k] := by
      rw [hdone.2, if_neg (Nat.lt_irrefl k), List.getElem?_eq_getElem hlt]
    obtain ⟨data', hstore, hlen, hnew⟩ := store_spec (hdone.1 ▸ hlt) (f m.data[k] value)
    refine ⟨data', ?_, hlen.trans hdone.1, fun l => ?_⟩
    · rw [hcell]
      exact hstore
    · rw [hnew, hdone.2]
      by_cases heq : l = k
      · subst heq
        simp [List.getElem?_eq_getElem hlt]
      · have hiff : l < k + 1 ↔ l < k := by omega
        simp only [if_neg heq, hiff]
  refine ⟨data, hdata, h.rowCount, h.colCount, fun i hi j hj => ?_⟩
  change data[i * c + j]? = _
  rw [hcells, if_pos (rowMajor_lt hi hj), h.cell i hi j hj]
  rfl

/-- The rows that `check_sizes` accepts are rows of the other matrix. -/
theorem lt_of_checkSizes {msg : String} {startRow endRow : Int} {allow : Bool} {first last : Nat}
    (h : m.checkSizes msg other startRow endRow allow = .rows first last) :
    first < other.mRowCount ∧ last < other.mRowCount := by
  unfold checkSizes at h
  simp only at h
  split at h
  · cases h
  split at h
  · cases h
  split at h
  · cases h
  split at h
  · cases h
  · injection h with hfirst hlast
    omega

end Loops

end TMatrix

/-! ## The shapes -/

/-- The number of rows from the first to the last. -/
def rowCount (first last : Nat) : Int := last - first + 1

/-- A matrix with `r` rows and `c` columns, and `k` rows of one with `c'` columns: the shapes
match. -/
def ShapesMatch (k : Int) (r c c' : Nat) : Prop :=
  (k = r ∧ c' = c) ∨ (k = 1 ∧ c' = c) ∨ (c' = 1 ∧ k = r) ∨ (c' = 1 ∧ k = 1)

instance (k : Int) (r c c' : Nat) : Decidable (ShapesMatch k r c c') :=
  inferInstanceAs (Decidable (_ ∨ _ ∨ _ ∨ _))

theorem shapesMatch_of_eq {k : Int} {r c c' : Nat} (h : c' = c) :
    ShapesMatch k r c c' ↔ k = r ∨ k = 1 := by
  unfold ShapesMatch
  tauto

theorem shapesMatch_of_ne {k : Int} {r c c' : Nat} (h : c' ≠ c) :
    ShapesMatch k r c c' ↔ c' = 1 ∧ (k = r ∨ k = 1) := by
  unfold ShapesMatch
  tauto

/-- The cell of the other matrix that belongs to a cell. -/
def broadcast (o : Nat → Nat → ℚ) (first : Nat) (k : Int) (r c c' i j : Nat) : ℚ :=
  o (first + if k = r then i else 0) (if c' = c then j else 0)

/-- What the loop that is taken makes of a cell and a cell of the other matrix. -/
def Elementwise.combine (e : Elementwise) (k : Int) (r c c' : Nat) (scale x o : ℚ) : ℚ :=
  if c' = c then
    if k = r then e.oneToOne.apply scale x o else e.vector.apply scale x o
  else if k = r then e.column.apply scale x o
  else e.scalar x (scale * o)

namespace TMatrix

section Shapes

variable {m other : TMatrix ℚ} {r c r' c' first last : Nat} {v o : Nat → Nat → ℚ}
  {startRow endRow : Int}

/-- The cells of the other matrix, from its first row on. -/
theorem Describes.drop_cell (h : other.Describes r' c' o) {i j : Nat} (hi : first + i < r')
    (hj : j < c') {l : Nat} (hl : l = i * c' + j) :
    (other.data.drop (first * c'))[l]? = some (o (first + i) j) := by
  have hindex : first * c' + l = (first + i) * c' + j := by
    rw [hl, Nat.add_mul, Nat.add_assoc]
  rw [List.getElem?_drop, hindex, h.cell _ hi j hj]

/-- The loop that is taken writes every cell once, or nothing is written. -/
theorem elementwise_spec (hm : m.Describes r c v) (ho : other.Describes r' c' o)
    (e : Elementwise)
    (hrows : m.checkSizes e.name other startRow endRow true = .rows first last) (scale : ℚ) :
    if ShapesMatch (rowCount first last) r c c' then
      ∃ m', elementwise e m other startRow endRow scale = some (true, m') ∧
        m'.Describes r c fun i j => e.combine (rowCount first last) r c c' scale (v i j)
          (broadcast o first (rowCount first last) r c c' i j)
    else ∃ text, elementwise e m other startRow endRow scale = some (false, m.setError text) := by
  obtain ⟨hfirst, hlast⟩ := lt_of_checkSizes hrows
  obtain rfl := hm.rowCount
  obtain rfl := hm.colCount
  obtain rfl := ho.rowCount
  obtain rfl := ho.colCount
  have hk : (last : Int) - first + 1 = rowCount first last := rfl
  have hin : rowCount first last = m.mRowCount → ∀ i < m.mRowCount,
      first + i < other.mRowCount := by
    intro hall i hi
    unfold rowCount at hall
    omega
  simp only [elementwise, hrows, hk]
  unfold broadcast Elementwise.combine
  by_cases hcols : other.mColCount = m.mColCount
  · simp only [if_pos hcols, shapesMatch_of_eq hcols]
    by_cases hall : rowCount first last = m.mRowCount
    · -- one to one
      have hcells : ∀ i < m.mRowCount, ∀ j < m.mColCount,
          (other.data.drop (first * other.mColCount))[i * m.mColCount + j]? =
            some (o (first + i) j) := fun i hi j hj =>
        ho.drop_cell (hin hall i hi) (hcols ▸ hj) (hcols ▸ rfl)
      obtain ⟨data, hdata, hdescribes⟩ := hm.updateCells_spec hcells (e.oneToOne.apply scale)
      simp only [if_pos hall, if_pos (Or.inl hall), hdata]
      exact ⟨_, rfl, hdescribes⟩
    · by_cases hone : rowCount first last = 1
      · -- the same vector for each row
        have hcells : ∀ i < m.mRowCount, ∀ j < m.mColCount,
            (other.data.drop (first * other.mColCount))[j]? = some (o (first + 0) j) :=
          fun _ _ j hj => ho.drop_cell hfirst (hcols ▸ hj) (by omega)
        obtain ⟨data, hdata, hdescribes⟩ := hm.updateCells_spec hcells (e.vector.apply scale)
        simp only [if_neg hall, if_pos hone, if_pos (Or.inr hone), hdata]
        exact ⟨_, rfl, hdescribes⟩
      · simp only [if_neg hall, if_neg hone, if_neg (not_or_intro hall hone)]
        exact ⟨_, rfl⟩
  · simp only [if_neg hcols, shapesMatch_of_ne hcols]
    by_cases hcol : other.mColCount = 1
    · by_cases hall : rowCount first last = m.mRowCount
      · -- a different value for each row
        have hcells : ∀ i < m.mRowCount, ∀ j < m.mColCount,
            (other.data.drop (first * other.mColCount))[i]? = some (o (first + i) 0) :=
          fun i hi _ _ => ho.drop_cell (hin hall i hi) (by omega) (by rw [hcol]; omega)
        obtain ⟨data, hdata, hdescribes⟩ := hm.updateCells_spec hcells (e.column.apply scale)
        simp only [if_pos hall, if_pos (And.intro hcol hall),
          if_pos (And.intro hcol (Or.inl hall)), hdata]
        exact ⟨_, rfl, hdescribes⟩
      · by_cases hone : rowCount first last = 1
        · -- a scalar
          have hcell : (other.data.drop (first * other.mColCount))[0]? = some (o (first + 0) 0) :=
            ho.drop_cell hfirst (by omega) (by omega)
          obtain ⟨data, hdata, hdescribes⟩ :=
            hm.updateAll_spec (scale * o (first + 0) 0) e.scalar
          simp only [if_neg hall, if_neg (not_and_of_not_right _ hall),
            if_pos (And.intro hcol hone), if_pos (And.intro hcol (Or.inr hone)), hcell,
            Option.bind_eq_bind, Option.bind_some, hdata]
          exact ⟨_, rfl, hdescribes⟩
        · simp only [if_neg (not_and_of_not_right _ hall), if_neg (not_and_of_not_right _ hone),
            if_neg (not_and_of_not_right _ (not_or_intro hall hone))]
          exact ⟨_, rfl⟩
    · simp only [if_neg (not_and_of_not_left _ hcol)]
      exact ⟨_, rfl⟩

end Shapes

end TMatrix

/-! ## The formula -/

/-- The three operations. -/
inductive MatrixOp where
  | add
  | multiply
  | divide
  deriving DecidableEq, Repr

namespace MatrixOp

/-- The operation. -/
def run : MatrixOp → TMatrix ℚ → TMatrix ℚ → Int → Int → ℚ → Option (Bool × TMatrix ℚ)
  | .add => TMatrix.add
  | .multiply => TMatrix.multiply
  | .divide => TMatrix.divide

/-- Its loops. -/
def loops : MatrixOp → Elementwise
  | .add => TMatrix.addLoops
  | .multiply => TMatrix.multiplyLoops
  | .divide => TMatrix.divideLoops

/-- What should become of a cell `x` and a cell `o` of the other matrix. -/
def formula : MatrixOp → ℚ → ℚ → ℚ → ℚ
  | .add, s, x, o => x + s * o
  | .multiply, s, x, o => x * (s * o)
  | .divide, s, x, o => x / (s * o)

/-- The operation on matrices with the cells `v` and `o` follows the formula if their shapes match,
and else answers false and leaves the matrix as it is. -/
def FollowsFormula (op : MatrixOp) (m other : TMatrix ℚ) (startRow endRow : Int) (scale : ℚ)
    (first : Nat) (k : Int) (r c c' : Nat) (v o : Nat → Nat → ℚ) : Prop :=
  if ShapesMatch k r c c' then
    ∃ m', op.run m other startRow endRow scale = some (true, m') ∧
      m'.Describes r c fun i j => op.formula scale (v i j) (broadcast o first k r c c' i j)
  else ∃ text, op.run m other startRow endRow scale = some (false, m.setError text)

/-- The loops for the same vector for each row, or for a different value for each row. -/
def RowLoops (k : Int) (r c c' : Nat) : Prop :=
  (c' = c ∧ k = 1 ∧ k ≠ r) ∨ (c' = 1 ∧ c' ≠ c ∧ k = r)

instance (k : Int) (r c c' : Nat) : Decidable (RowLoops k r c c') :=
  inferInstanceAs (Decidable (_ ∨ _))

/-- The sign of the scale -1.0 is lost, in a product or a quotient where it matters. -/
def SignLost (op : MatrixOp) (scale : ℚ) (first : Nat) (k : Int) (r c c' : Nat)
    (v o : Nat → Nat → ℚ) : Prop :=
  op ≠ .add ∧ scale = -1 ∧ RowLoops k r c c' ∧
    ∃ i < r, ∃ j < c, v i j * broadcast o first k r c c' i j ≠ 0

section Formula

variable {op : MatrixOp} {m other : TMatrix ℚ} {startRow endRow : Int} {scale x y : ℚ}
  {first last r c r' c' : Nat} {k : Int} {v o : Nat → Nat → ℚ}

theorem run_eq (op : MatrixOp) : op.run = TMatrix.elementwise op.loops := by
  cases op with
  | add => rfl
  | multiply => rfl
  | divide => rfl

/-- The loops one to one follow the formula, for every scale. -/
theorem oneToOne_apply (op : MatrixOp) (scale x y : ℚ) :
    op.loops.oneToOne.apply scale x y = op.formula scale x y := by
  unfold ScaleCases.apply
  by_cases hone : scale = 1
  · rw [if_pos hone, hone]
    cases op <;> simp [loops, formula, TMatrix.addLoops, TMatrix.multiplyLoops,
      TMatrix.divideLoops]
  · rw [if_neg hone]
    by_cases hminus : scale = -1
    · rw [if_pos hminus, hminus]
      cases op <;> simp [loops, formula, TMatrix.addLoops, TMatrix.multiplyLoops,
        TMatrix.divideLoops, sub_eq_add_neg]
    · rw [if_neg hminus]
      cases op <;> rfl

/-- So does the operator with a scalar. -/
theorem scalar_eq (op : MatrixOp) (scale x y : ℚ) :
    op.loops.scalar x (scale * y) = op.formula scale x y := by
  cases op <;> rfl

/-- The other loops do it but for the scale -1.0 of a product or a quotient. -/
theorem vector_apply (op : MatrixOp) (scale x y : ℚ) :
    op.loops.vector.apply scale x y =
      op.formula (if op ≠ .add ∧ scale = -1 then 1 else scale) x y := by
  by_cases hlost : op ≠ .add ∧ scale = -1
  · obtain ⟨hop, rfl⟩ := hlost
    rw [if_pos ⟨hop, rfl⟩, ScaleCases.apply, if_neg (by norm_num), if_pos rfl]
    cases op with
    | add => exact absurd rfl hop
    | multiply => simp [loops, formula, TMatrix.multiplyLoops]
    | divide => simp [loops, formula, TMatrix.divideLoops]
  · rw [if_neg hlost, ← oneToOne_apply]
    unfold ScaleCases.apply
    cases op with
    | add => rfl
    | multiply =>
      have hminus : scale ≠ -1 := fun heq => hlost ⟨by decide, heq⟩
      simp only [if_neg hminus]
      rfl
    | divide =>
      have hminus : scale ≠ -1 := fun heq => hlost ⟨by decide, heq⟩
      simp only [if_neg hminus]
      rfl

theorem column_eq_vector (op : MatrixOp) : op.loops.column = op.loops.vector := by
  cases op <;> rfl

/-- What an operation makes of a cell. -/
theorem combine_eq (op : MatrixOp) (hmatch : ShapesMatch k r c c') (scale x y : ℚ) :
    op.loops.combine k r c c' scale x y =
      op.formula (if op ≠ .add ∧ scale = -1 ∧ RowLoops k r c c' then 1 else scale) x y := by
  by_cases hrow : RowLoops k r c c'
  · have heq : op.loops.combine k r c c' scale x y = op.loops.vector.apply scale x y := by
      unfold Elementwise.combine
      rcases hrow with ⟨hcols, -, hall⟩ | ⟨-, hcols, hall⟩
      · rw [if_pos hcols, if_neg hall]
      · rw [if_neg hcols, if_pos hall, column_eq_vector]
    rw [heq, vector_apply]
    simp only [hrow, and_true]
  · have hkept : ¬ (op ≠ .add ∧ scale = -1 ∧ RowLoops k r c c') := fun hlost => hrow hlost.2.2
    rw [if_neg hkept, Elementwise.combine]
    by_cases hcols : c' = c
    · have hall : k = r := by
        unfold ShapesMatch at hmatch
        unfold RowLoops at hrow
        tauto
      rw [if_pos hcols, if_pos hall, oneToOne_apply]
    · have hall : k ≠ r := by
        unfold ShapesMatch at hmatch
        unfold RowLoops at hrow
        tauto
      rw [if_neg hcols, if_neg hall, scalar_eq]

/-- With a lost sign a cell is right only where the sign does not matter. -/
theorem formula_one_eq_iff (hop : op ≠ .add) (hdiv : op = .divide → -1 * y ≠ 0) :
    op.formula 1 x y = op.formula (-1) x y ↔ x * y = 0 := by
  cases op with
  | add => exact absurd rfl hop
  | multiply =>
    simp only [formula]
    constructor
    · intro h
      linarith
    · intro h
      linarith
  | divide =>
    have hy : y ≠ 0 := by simpa using hdiv rfl
    have hneg : x / (-1 * y) = -(x / y) := by rw [neg_one_mul, div_neg]
    have hself : x / y = -(x / y) ↔ x / y = 0 :=
      ⟨fun h => by linarith, fun h => by rw [h, neg_zero]⟩
    simp only [formula, hneg, one_mul]
    rw [hself, div_eq_zero_iff, mul_eq_zero]

/-- The shapes of these loops match. -/
theorem RowLoops.shapesMatch (h : RowLoops k r c c') : ShapesMatch k r c c' := by
  rcases h with ⟨hcols, hone, -⟩ | ⟨hcol, -, hall⟩
  · exact .inr (.inl ⟨hone, hcols⟩)
  · exact .inr (.inr (.inl ⟨hcol, hall⟩))

/-- The operation follows the formula exactly when no sign is lost. -/
theorem follows_formula_iff (op : MatrixOp) (hm : m.Describes r c v) (ho : other.Describes r' c' o)
    (hrows : m.checkSizes op.loops.name other startRow endRow true = .rows first last)
    (scale : ℚ)
    (hdiv : op = .divide → ShapesMatch (rowCount first last) r c c' → ∀ i < r, ∀ j < c,
      scale * broadcast o first (rowCount first last) r c c' i j ≠ 0) :
    op.FollowsFormula m other startRow endRow scale first (rowCount first last) r c c' v o ↔
      ¬ op.SignLost scale first (rowCount first last) r c c' v o := by
  have hspec := TMatrix.elementwise_spec hm ho op.loops hrows scale
  rw [← run_eq] at hspec
  unfold FollowsFormula SignLost
  generalize rowCount first last = k at *
  by_cases hmatch : ShapesMatch k r c c'
  · rw [if_pos hmatch] at hspec ⊢
    obtain ⟨m', hrun, hdescribes⟩ := hspec
    by_cases hlost : op ≠ .add ∧ scale = -1 ∧ RowLoops k r c c'
    · obtain ⟨hop, rfl, hloops⟩ := hlost
      have hcell : ∀ i < r, ∀ j < c,
          op.loops.combine k r c c' (-1) (v i j) (broadcast o first k r c c' i j) =
            op.formula (-1) (v i j) (broadcast o first k r c c' i j) ↔
          v i j * broadcast o first k r c c' i j = 0 := by
        intro i hi j hj
        rw [combine_eq op hmatch, if_pos ⟨hop, rfl, hloops⟩]
        exact formula_one_eq_iff hop fun heq => hdiv heq hmatch i hi j hj
      constructor
      · rintro ⟨m'', hrun', hdescribes'⟩ ⟨-, -, -, i, hi, j, hj, hne⟩
        have hsame := Option.some.inj (hrun.symm.trans hrun')
        obtain rfl : m' = m'' := congrArg Prod.snd hsame
        have hi' := hdescribes.cell i hi j hj
        rw [hdescribes'.cell i hi j hj] at hi'
        exact hne ((hcell i hi j hj).mp (Option.some.inj hi').symm)
      · intro hno
        refine ⟨m', hrun, hdescribes.rowCount, hdescribes.colCount, fun i hi j hj => ?_⟩
        have hzero : v i j * broadcast o first k r c c' i j = 0 := by
          by_contra hne
          exact hno ⟨hop, rfl, hloops, i, hi, j, hj, hne⟩
        rw [hdescribes.cell i hi j hj, (hcell i hi j hj).mpr hzero]
    · refine iff_of_true ⟨m', hrun, hdescribes.rowCount, hdescribes.colCount,
        fun i hi j hj => ?_⟩ fun h => hlost ⟨h.1, h.2.1, h.2.2.1⟩
      rw [hdescribes.cell i hi j hj, combine_eq op hmatch, if_neg hlost]
  · rw [if_neg hmatch] at hspec ⊢
    exact iff_of_true hspec fun hlost => hmatch hlost.2.2.1.shapesMatch

end Formula

/-- A quotient one to one keeps the sign. -/
theorem follows_formula_iff_oneToOne :
    MatrixOp.divide.FollowsFormula ⟨[8, 9], 1, 2, "no error"⟩ ⟨[2, 3], 1, 2, "no error"⟩ 0 (-1) (-1)
      0 1 1 2 2 (fun _ j => 8 + j) fun _ j => 2 + j := by
  have hm : TMatrix.Describes ⟨[8, 9], 1, 2, "no error"⟩ 1 2 fun _ j => 8 + (j : ℚ) :=
    ⟨rfl, rfl, by decide +kernel⟩
  have ho : TMatrix.Describes ⟨[2, 3], 1, 2, "no error"⟩ 1 2 fun _ j => 2 + (j : ℚ) :=
    ⟨rfl, rfl, by decide +kernel⟩
  have hrows : TMatrix.checkSizes ⟨[8, 9], 1, 2, "no error"⟩ "divide" ⟨[2, 3], 1, 2, "no error"⟩
      0 (-1) true = .rows 0 0 := by decide +kernel
  refine (follows_formula_iff .divide hm ho hrows (-1) fun _ _ => by decide +kernel).mpr
    fun hlost => ?_
  have hloops : ¬ RowLoops (rowCount 0 0) 1 2 2 := by decide
  exact hloops hlost.2.2.1

/-- The product of a matrix and a vector with the scale -1.0 has the sign of the scale 1.0. -/
theorem multiply_vector_sign_lost :
    MatrixOp.multiply.run ⟨[1, 2, 3, 4], 2, 2, "no error"⟩ ⟨[5, 7], 1, 2, "no error"⟩ 0 (-1) (-1) =
        some (true, ⟨[5, 14, 15, 28], 2, 2, "no error"⟩) ∧
      MatrixOp.multiply.formula (-1) 1 5 = -5 ∧
      ¬ MatrixOp.multiply.FollowsFormula ⟨[1, 2, 3, 4], 2, 2, "no error"⟩
        ⟨[5, 7], 1, 2, "no error"⟩ 0 (-1) (-1) 0 1 2 2 2 (fun i j => 2 * i + j + 1)
        fun _ j => 5 + 2 * j := by
  have hrun : MatrixOp.multiply.run ⟨[1, 2, 3, 4], 2, 2, "no error"⟩ ⟨[5, 7], 1, 2, "no error"⟩
      0 (-1) (-1) = some (true, ⟨[5, 14, 15, 28], 2, 2, "no error"⟩) := by decide +kernel
  refine ⟨hrun, by decide +kernel, fun hfollows => ?_⟩
  rw [FollowsFormula, if_pos (by decide)] at hfollows
  obtain ⟨m', hrun', hdescribes⟩ := hfollows
  obtain rfl := congrArg Prod.snd (Option.some.inj (hrun.symm.trans hrun'))
  exact absurd (hdescribes.cell 0 (by decide) 0 (by decide)) (by decide +kernel)

end MatrixOp

end Rubyk
