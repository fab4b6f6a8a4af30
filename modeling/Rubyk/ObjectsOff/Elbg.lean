/-
  ObjectsOff/Elbg.lean --- `src/objects_off/VQ/elbg.c`: how `VQ` makes a codebook of its
  training vectors.

  A cell holds the points that belong to a codeword.  A round puts every point into the cell
  of its nearest codeword, then shifts codewords from cells with a low error to cells with a
  high one, and takes the means of the cells for the next codebook.

  `Partition` is what the cells are at any time: every point is in exactly one of them, and
  `nearest_cb` says in which.  A shift empties two cells and fills them again.  The cells it
  works on need not be different: the random search for a high utility cell can find the cell
  that is emptied, or the one that its points go to.

  NUMBERS are those of an `int`: sums, products and differences wrap (`int32`).  Coordinates
  of at most `B` keep the numbers that matter in range when the sizes are as in `Fits`, and
  each wrap is then taken off by a bound on what is in it (`int32_eq`).  The numbers that may
  wrap all the same only decide if a shift is made.  Vectors are found by their position: the
  products of a position and `dim` are in range with such sizes.

  An array access outside the array gives `none`.  The random generator is any one.
-/
import Mathlib.Algebra.Order.Ring.Basic
import Mathlib.Algebra.Order.Ring.Int
import Mathlib.Data.Int.Cast.Lemmas
import Mathlib.Data.List.Nodup
import Mathlib.Data.List.Perm.Subperm
import Rubyk.Lib.Cells

set_option autoImplicit false

namespace Rubyk

open Lib

/-- `INT_MAX`. -/
def Elbg.intMax : Int := 2147483647

/-- `elbg_data`, but for the points and the sizes. -/
structure Elbg (R : Type) where
  error : Int
  codebook : List (List Int)
  cells : List (List Nat)
  utility : List Int
  utilityInc : List Int
  nearestCb : List Nat
  randState : R

namespace Elbg

/-- What an `int` keeps of a number.  It is taken once for an expression of sums, differences
and products, which is the same as in every place. -/
def int32 (x : Int) : Int := x.bmod 4294967296

/-- The loop of `distance_limited`. -/
def distanceFrom (limit : Int) : List Int → List Int → Int → Int
  | x :: a, y :: b, dist =>
      let dist := int32 (dist + (x - y) * (x - y))
      if limit < dist then intMax else distanceFrom limit a b dist
  | _, _, dist => dist

/-- `distance_limited`. -/
def distanceLimited (a b : List Int) (limit : Int) : Int := distanceFrom limit a b 0

/-- `ROUNDED_DIV`. -/
def roundedDiv (a : Int) (b : Nat) : Int :=
  (int32 (if 0 < a then a + (b / 2 : Nat) else a - (b / 2 : Nat))).tdiv b

/-- `vect_division`. -/
def vectDivision (vect : List Int) (div : Nat) : List Int :=
  if 1 < div then vect.map (roundedDiv · div) else vect

/-- The points of a cell. -/
def pointsOf (points : List (List Int)) (cell : List Nat) : Option (List (List Int)) :=
  cell.mapM (points[·]?)

/-- A point is added to a sum. -/
def addVect (sum p : List Int) : List Int := List.zipWith (fun x y => int32 (x + y)) sum p

/-- The sum of points. -/
def sumOf (dim : Nat) (ps : List (List Int)) : List Int := ps.foldl addVect (List.replicate dim 0)

/-- `eval_error_cell`. -/
def evalErrorCell (centroid : List Int) (ps : List (List Int)) : Int :=
  ps.foldl (fun error p => int32 (error + distanceLimited centroid p intMax)) 0

/-- The loop of `get_closest_codebook`, with `pick` and `diff_min`. -/
def closestFrom (index : Nat) (codeword : List Int) :
    List (List Int × Nat) → Nat × Int → Nat × Int
  | [], best => best
  | (other, i) :: rest, (pick, diffMin) =>
      if i ≠ index then
        let diff := distanceLimited other codeword diffMin
        closestFrom index codeword rest (if diff < diffMin then (i, diff) else (pick, diffMin))
      else closestFrom index codeword rest (pick, diffMin)

/-- `simple_lbg`: the centroids, and the error of each. -/
def simpleLbg (dim : Nat) (centroid : List Int × List Int) (ps : List (List Int)) :
    (List Int × List Int) × Int × Int :=
  let second (c : List Int × List Int) (p : List Int) : Bool :=
    distanceLimited c.2 p intMax ≤ distanceLimited c.1 p intMax
  let firsts := ps.filter fun p => !second centroid p
  let seconds := ps.filter fun p => second centroid p
  let centroid := (vectDivision (sumOf dim firsts) firsts.length,
    vectDivision (sumOf dim seconds) seconds.length)
  let utility := ps.foldl (fun (newutility : Int × Int) p =>
    let dist := (distanceLimited centroid.1 p intMax, distanceLimited centroid.2 p intMax)
    if dist.2 < dist.1 then (newutility.1, int32 (newutility.2 + dist.2))
    else (int32 (newutility.1 + dist.1), newutility.2)) (0, 0)
  (centroid, utility)

/-- `get_new_centroids`. -/
def getNewCentroids (dim : Nat) (ps : List (List Int)) : List Int × List Int :=
  let min := ps.foldl (List.zipWith min) (List.replicate dim intMax)
  let max := ps.foldl (List.zipWith max) (List.replicate dim 0)
  (List.zipWith (fun min max => int32 (min + (int32 (max - min)).tdiv 3)) min max,
    List.zipWith (fun min max => int32 (min + (int32 (2 * (max - min))).tdiv 3)) min max)

/-- `shift_codebook`, the loop: where the points of the high utility cell go. -/
def separate (points : List (List Int)) (luc huc : Nat) (centroid : List Int × List Int) :
    List Nat → List (List Nat) → Option (List (List Nat))
  | [], cells => some cells
  | index :: rest, cells => do
      let p ← points[index]?
      let idx := if distanceLimited p centroid.2 intMax < distanceLimited p centroid.1 intMax
        then huc else luc
      let cell ← cells[idx]?
      let cells ← store cells idx (index :: cell)
      separate points luc huc centroid rest cells

/-- `shift_codebook`. -/
def shiftCodebook (points : List (List Int)) (luc huc cluc : Nat)
    (centroid : List Int × List Int) (cells : List (List Nat)) : Option (List (List Nat)) := do
  let closest ← cells[cluc]?
  let low ← cells[luc]?
  let cells ← store cells cluc (closest ++ low)
  let cells ← store cells luc []
  let tempdata ← cells[huc]?
  let cells ← store cells huc []
  separate points luc huc centroid tempdata cells

/-- The loop of `evaluate_utility_inc`. -/
def utilityIncFrom (numCB : Nat) (error : Int) : List Int → Int → List Int
  | [], _ => []
  | u :: us, inc =>
      let inc := if error < int32 (numCB * u) then int32 (inc + u) else inc
      inc :: utilityIncFrom numCB error us inc

variable {R : Type} (points : List (List Int)) (dim numCB : Nat) (avRandom : R → Nat × R)

/-- `evaluate_utility_inc`. -/
def evaluateUtilityInc (s : Elbg R) : Elbg R :=
  { s with utilityInc := utilityIncFrom numCB s.error s.utility 0 }

/-- `get_high_utility_cell`.  The random number is unsigned, and so are the operands of `%`. -/
def getHighUtilityCell (s : Elbg R) : Option (Nat × Elbg R) := do
  let last ← s.utilityInc[numCB - 1]?
  let (random, randState) := avRandom s.randState
  let r := int32 (random % (last % 4294967296).toNat : Nat)
  let i ← s.utilityInc.findIdx? fun inc => r ≤ inc
  some (i, { s with randState := randState })

/-- `get_closest_codebook`. -/
def getClosestCodebook (s : Elbg R) (index : Nat) : Option Nat := do
  let codeword ← s.codebook[index]?
  some (closestFrom index codeword s.codebook.zipIdx (0, intMax)).1

/-- `update_utility_and_n_cb`. -/
def updateUtilityAndNCb (s : Elbg R) (idx : Nat) (newutility : Int) : Option (Elbg R) := do
  let utility ← store s.utility idx newutility
  let cell ← s.cells[idx]?
  let nearestCb ← cell.foldlM (fun nearest index => store nearest index idx) s.nearestCb
  some { s with utility := utility, nearestCb := nearestCb }

/-- `try_shift_candidate`. -/
def tryShiftCandidate (s : Elbg R) (luc huc cluc : Nat) : Option (Elbg R) := do
  let uLow ← s.utility[luc]?
  let uHigh ← s.utility[huc]?
  let uClosest ← s.utility[cluc]?
  let olderror := int32 (uLow + uHigh + uClosest)
  let low ← s.cells[luc]? >>= pointsOf points
  let high ← s.cells[huc]? >>= pointsOf points
  let closest ← s.cells[cluc]? >>= pointsOf points
  let centroid := vectDivision (sumOf dim (low ++ closest)) (low ++ closest).length
  let newutility := int32 (evalErrorCell centroid low + evalErrorCell centroid closest)
  let (centroids, newutilities) := simpleLbg dim (getNewCentroids dim high) high
  let newerror := int32 (newutility + (newutilities.1 + newutilities.2))
  if newerror < olderror then
    let cells ← shiftCodebook points luc huc cluc centroids s.cells
    let s := { s with cells := cells, error := int32 (s.error + (newerror - olderror)) }
    let s ← s.updateUtilityAndNCb luc newutilities.1
    let s ← s.updateUtilityAndNCb huc newutilities.2
    let s ← s.updateUtilityAndNCb cluc newutility
    some (s.evaluateUtilityInc numCB)
  else some s

/-- The loop of `do_shiftings`. -/
def shiftings : List Nat → Elbg R → Option (Elbg R)
  | [], s => some s
  | luc :: rest, s => do
      let u ← s.utility[luc]?
      if int32 (numCB * u) < s.error then
        let last ← s.utilityInc[numCB - 1]?
        if last = 0 then some s
        else
          let (huc, s) ← s.getHighUtilityCell numCB avRandom
          let cluc ← s.getClosestCodebook luc
          let s ← s.tryShiftCandidate points dim numCB luc huc cluc
          shiftings rest s
      else shiftings rest s

/-- `do_shiftings`. -/
def doShiftings (s : Elbg R) : Option (Elbg R) :=
  shiftings points dim numCB avRandom (List.range numCB) (s.evaluateUtilityInc numCB)

/-! ## Cells -/

section Cells

variable {cells cells' : List (List Nat)} {nearest nearest' : List Nat} {n k l index : Nat}
  {cell cell' : List Nat}

/-- Every point is in one cell, and `nearest` says in which. -/
structure Partition (n : Nat) (cells : List (List Nat)) (nearest : List Nat) : Prop where
  perm : cells.flatten.Perm (List.range n)
  room : n ≤ nearest.length
  named : ∀ (k : Nat) (cell : List Nat), cells[k]? = some cell →
    ∀ index : Nat, index ∈ cell → nearest[index]? = some k

theorem Partition.lt (h : Partition n cells nearest) (hcell : cells[k]? = some cell)
    (hindex : index ∈ cell) : index < n :=
  List.mem_range.mp (h.perm.subset
    (List.mem_flatten.mpr ⟨cell, List.mem_of_getElem? hcell, hindex⟩))

/-- A point more or less in front of one cell, when all others stay. -/
theorem perm_of_append_cons {i : Nat} {a b : List Nat} (h : (cell ++ a).Perm (i :: cell ++ b)) :
    a.Perm (i :: b) :=
  (List.perm_append_left_iff cell).mp (h.trans List.perm_middle.symm)

/-- Writing a cell: what was in it is gone, and what is written is there. -/
theorem flatten_store (hcell : cells[k]? = some cell) (cell' : List Nat) :
    ∃ cells', store cells k cell' = some cells' ∧ cells'.length = cells.length ∧
      (∀ l : Nat, cells'[l]? = if l = k then some cell' else cells[l]?) ∧
      (cell ++ cells'.flatten).Perm (cell' ++ cells.flatten) := by
  obtain ⟨hk, rfl⟩ := List.getElem?_eq_some_iff.mp hcell
  obtain ⟨cells', hstore, hlength, hget⟩ := store_spec hk cell'
  refine ⟨cells', hstore, hlength, hget, ?_⟩
  obtain rfl : cells.set k cell' = cells' := Option.some.inj ((if_pos hk).symm.trans hstore)
  have hsplit : cells = cells.take k ++ cells[k] :: cells.drop (k + 1) := by
    rw [List.getElem_cons_drop, List.take_append_drop]
  generalize cells[k] = cell at hsplit ⊢
  rw [List.set_eq_take_append_cons_drop, if_pos hk]
  conv_rhs => rw [hsplit]
  simp only [List.flatten_append, List.flatten_cons]
  refine (List.perm_append_comm_assoc _ _ _).trans ?_
  refine .trans (.append_left _ (List.perm_append_comm_assoc _ _ _)) ?_
  exact (List.perm_append_comm_assoc _ _ _)

/-- The loop of `shift_codebook` puts its points into two cells. -/
theorem separate_spec {points : List (List Int)} {luc huc : Nat}
    (centroid : List Int × List Int) (hluc : luc < cells.length) (hhuc : huc < cells.length)
    (hcell : ∀ index ∈ cell, index < points.length) :
    ∃ cells', separate points luc huc centroid cell cells = some cells' ∧
      cells'.length = cells.length ∧ (cell ++ cells.flatten).Perm cells'.flatten ∧
      ∀ l, l ≠ luc → l ≠ huc → cells'[l]? = cells[l]? := by
  induction cell generalizing cells with
  | nil => exact ⟨cells, rfl, rfl, .refl _, fun _ _ _ => rfl⟩
  | cons index rest ih =>
    have hindex := hcell index List.mem_cons_self
    obtain ⟨idx, hidx⟩ : ∃ idx, idx = if distanceLimited points[index] centroid.2 intMax <
      distanceLimited points[index] centroid.1 intMax then huc else luc := ⟨_, rfl⟩
    have hlt : idx < cells.length := by
      rw [hidx]
      split
      · exact hhuc
      · exact hluc
    have hread := List.getElem?_eq_getElem hlt
    obtain ⟨cells₁, hstore, hlength, hget, hperm⟩ := flatten_store hread (index :: cells[idx])
    obtain ⟨cells', hrest, hlength', hperm', hsame⟩ := ih (hlength ▸ hluc) (hlength ▸ hhuc)
      fun i hi => hcell i (List.mem_cons_of_mem index hi)
    refine ⟨cells', ?_, hlength'.trans hlength, ?_, fun l hl hl' => ?_⟩
    · simp only [separate, List.getElem?_eq_getElem hindex, Option.bind_eq_bind, Option.bind_some,
        ← hidx, hread, hstore, hrest]
    · have hone : cells₁.flatten.Perm (index :: cells.flatten) := perm_of_append_cons hperm
      refine .trans ?_ hperm'
      refine .trans ?_ (.append_left _ hone.symm)
      exact List.perm_middle.symm
    · rw [hsame l hl hl', hget, if_neg]
      rintro rfl
      rw [hidx] at hl hl'
      split at hl'
      · exact hl' rfl
      · exact hl (by rw [if_neg (by assumption)])

/-- A shift keeps every point, and changes three cells at most. -/
theorem shiftCodebook_spec {points : List (List Int)} {luc huc cluc : Nat}
    (centroid : List Int × List Int) (hne : luc ≠ cluc) (hluc : luc < cells.length)
    (hhuc : huc < cells.length) (hcluc : cluc < cells.length)
    (hpoints : ∀ index ∈ cells.flatten, index < points.length) :
    ∃ cells', shiftCodebook points luc huc cluc centroid cells = some cells' ∧
      cells'.length = cells.length ∧ cells'.flatten.Perm cells.flatten ∧
      ∀ l, l ≠ luc → l ≠ huc → l ≠ cluc → cells'[l]? = cells[l]? := by
  have hclosest := List.getElem?_eq_getElem hcluc
  have hlow := List.getElem?_eq_getElem hluc
  obtain ⟨cells₁, hstore₁, hlength₁, hget₁, hperm₁⟩ :=
    flatten_store hclosest (cells[cluc] ++ cells[luc])
  have hlow₁ : cells₁[luc]? = some cells[luc] := by rw [hget₁, if_neg hne, hlow]
  obtain ⟨cells₂, hstore₂, hlength₂, hget₂, hperm₂⟩ := flatten_store hlow₁ []
  -- the points of the low utility cell are behind those of the closest one
  have hmoved : cells₂.flatten.Perm cells.flatten := by
    have happended : cells₁.flatten.Perm (cells[luc] ++ cells.flatten) :=
      (List.perm_append_left_iff cells[cluc]).mp (List.append_assoc _ _ _ ▸ hperm₁)
    exact (List.perm_append_left_iff cells[luc]).mp (hperm₂.trans happended)
  have hhuc₂ : huc < cells₂.length := by omega
  have hhigh := List.getElem?_eq_getElem hhuc₂
  obtain ⟨cells₃, hstore₃, hlength₃, hget₃, hperm₃⟩ := flatten_store hhigh []
  have htemp : ∀ index ∈ cells₂[huc], index < points.length := fun index hindex =>
    hpoints index (hmoved.subset (List.mem_flatten.mpr ⟨_, List.getElem_mem hhuc₂, hindex⟩))
  have hluc₃ : luc < cells₃.length := by omega
  have hhuc₃ : huc < cells₃.length := by omega
  obtain ⟨cells', hseparate, hlength', hperm', hsame⟩ := separate_spec centroid hluc₃ hhuc₃ htemp
  refine ⟨cells', ?_, by omega, ?_, fun l hl hl' hl'' => ?_⟩
  · simp only [shiftCodebook, hclosest, hlow, Option.bind_eq_bind, Option.bind_some, hstore₁,
      hstore₂, hhigh, hstore₃, hseparate]
  · exact hperm'.symm.trans (hperm₃.trans hmoved)
  · rw [hsame l hl hl', hget₃, if_neg hl', hget₂, if_neg hl, hget₁, if_neg hl'']

/-- Writing one value to many places. -/
theorem foldlM_store_spec (idx : Nat) (hcell : ∀ index ∈ cell, index < nearest.length) :
    ∃ nearest', cell.foldlM (fun nearest index => store nearest index idx) nearest =
        some nearest' ∧ nearest'.length = nearest.length ∧
      ∀ l : Nat, nearest'[l]? = if l ∈ cell then some idx else nearest[l]? := by
  induction cell generalizing nearest with
  | nil => exact ⟨nearest, rfl, rfl, fun l => by simp⟩
  | cons index rest ih =>
    obtain ⟨nearest₁, hstore, hlength, hget⟩ := store_spec (hcell index List.mem_cons_self) idx
    have hroom : ∀ i ∈ rest, i < nearest₁.length := fun i hi =>
      hlength ▸ hcell i (List.mem_cons_of_mem index hi)
    obtain ⟨nearest', hrest, hlength', hget'⟩ := ih hroom
    refine ⟨nearest', ?_, hlength'.trans hlength, fun l => ?_⟩
    · rw [List.foldlM_cons, hstore]
      exact hrest
    · rw [hget', hget]
      by_cases hl : l ∈ rest
      · simp [hl]
      · by_cases heq : l = index <;> simp [hl, heq]

/-- A point is in one cell only. -/
theorem eq_of_mem_cells (h : cells.flatten.Perm (List.range n)) (hk : cells[k]? = some cell)
    (hl : cells[l]? = some cell') (hindex : index ∈ cell) (hindex' : index ∈ cell') : k = l := by
  obtain ⟨-, hdisjoint⟩ := List.nodup_flatten.mp (h.nodup_iff.mpr List.nodup_range)
  obtain ⟨hk', rfl⟩ := List.getElem?_eq_some_iff.mp hk
  obtain ⟨hl', rfl⟩ := List.getElem?_eq_some_iff.mp hl
  rcases Nat.lt_trichotomy k l with hlt | heq | hgt
  · exact absurd hindex' (List.pairwise_iff_getElem.mp hdisjoint k l hk' hl' hlt hindex)
  · exact heq
  · exact absurd hindex (List.pairwise_iff_getElem.mp hdisjoint l k hl' hk' hgt hindex')

/-- Two cells have no more points than there are. -/
theorem length_add_length_le (h : cells.flatten.Perm (List.range n)) (hk : cells[k]? = some cell)
    (hl : cells[l]? = some cell') (hne : k ≠ l) : cell.length + cell'.length ≤ n := by
  have hnodup := (List.nodup_flatten.mp (h.nodup_iff.mpr List.nodup_range)).1
  have hdistinct : (cell ++ cell').Nodup :=
    List.nodup_append.mpr ⟨hnodup cell (List.mem_of_getElem? hk),
      hnodup cell' (List.mem_of_getElem? hl),
      fun i hi j hj heq => hne (eq_of_mem_cells h hk hl hi (heq ▸ hj))⟩
  have hsubset : cell ++ cell' ⊆ List.range n := by
    intro i hi
    rcases List.mem_append.mp hi with hi | hi
    · exact h.subset (List.mem_flatten.mpr ⟨cell, List.mem_of_getElem? hk, hi⟩)
    · exact h.subset (List.mem_flatten.mpr ⟨cell', List.mem_of_getElem? hl, hi⟩)
  have hle := (hdistinct.subperm hsubset).length_le
  rwa [List.length_append, List.length_range] at hle

theorem length_cell_le (h : cells.flatten.Perm (List.range n)) (hk : cells[k]? = some cell) :
    cell.length ≤ n := by
  have hnodup := (List.nodup_flatten.mp (h.nodup_iff.mpr List.nodup_range)).1
  have hsubset : cell ⊆ List.range n := fun i hi =>
    h.subset (List.mem_flatten.mpr ⟨cell, List.mem_of_getElem? hk, hi⟩)
  have hle := ((hnodup cell (List.mem_of_getElem? hk)).subperm hsubset).length_le
  rwa [List.length_range] at hle

/-- Three cells have changed, and the points in them were told. -/
theorem Partition.renamed {luc huc cluc : Nat} {low high closest : List Nat}
    (h : Partition n cells nearest) (hperm : cells'.flatten.Perm cells.flatten)
    (hsame : ∀ l, l ≠ luc → l ≠ huc → l ≠ cluc → cells'[l]? = cells[l]?)
    (hlow : cells'[luc]? = some low) (hhigh : cells'[huc]? = some high)
    (hclosest : cells'[cluc]? = some closest) (hlength : nearest'.length = nearest.length)
    (hget : ∀ index : Nat, nearest'[index]? = if index ∈ closest then some cluc
      else if index ∈ high then some huc else if index ∈ low then some luc else nearest[index]?) :
    Partition n cells' nearest' := by
  have hall := hperm.trans h.perm
  refine ⟨hall, hlength ▸ h.room, fun k cell hcell index hindex => ?_⟩
  rw [hget]
  split
  · rw [eq_of_mem_cells hall hclosest hcell (by assumption) hindex]
  · rename_i hnotClosest
    split
    · rw [eq_of_mem_cells hall hhigh hcell (by assumption) hindex]
    · rename_i hnotHigh
      split
      · rw [eq_of_mem_cells hall hlow hcell (by assumption) hindex]
      · rename_i hnotLow
        -- the cell is none of the three
        have hothers : k ≠ luc ∧ k ≠ huc ∧ k ≠ cluc := by
          refine ⟨?_, ?_, ?_⟩ <;> rintro rfl
          · exact hnotLow (Option.some.inj (hcell.symm.trans hlow) ▸ hindex)
          · exact hnotHigh (Option.some.inj (hcell.symm.trans hhigh) ▸ hindex)
          · exact hnotClosest (Option.some.inj (hcell.symm.trans hclosest) ▸ hindex)
        rw [hsame k hothers.1 hothers.2.1 hothers.2.2] at hcell
        exact h.named k cell hcell index hindex

end Cells

end Elbg

end Rubyk
