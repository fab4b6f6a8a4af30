/-
  ObjectsOff/VQ.lean --- `VQ::label_for` of `src/objects_off/VQ.cpp`: the codeword that is
  nearest to a vector.

  The search goes through the codebook and gives up a codeword as soon as its distance so
  far exceeds the best one.  A squared distance is a sum of squares, so it only grows; what
  was given up is not nearer (`label_for_nearest`).

  WHAT IS MODELLED.  The whole function.  Numbers are exact, and `DBL_MAX` is infinite.  The
  caller has compared the column counts.  The label is an `int`.
-/
import Mathlib.Algebra.BigOperators.Intervals
import Mathlib.Algebra.Order.BigOperators.Group.Finset
import Mathlib.Algebra.Order.Ring.Basic
import Mathlib.Algebra.Order.Ring.Int
import Rubyk.Lib.FirstMin
import Rubyk.Core.TMatrixSizes

set_option autoImplicit false

namespace Rubyk.VQ

open Lib TMatrix TMatrix.SizeT

section Search

variable {α : Type} [CommRing α] [LinearOrder α]

/-- The loop over the columns `js`, with the distance so far. -/
def distanceFrom (vector codeword : List α) (matchDistance : WithTop α) :
    List Nat → α → Option α
  | [], distance => some distance
  | j :: js, distance => do
      let x ← vector[j]?
      let c ← codeword[j]?
      let distance := distance + (x - c) * (x - c)
      if matchDistance < distance then some distance
      else distanceFrom vector codeword matchDistance js distance

/-- The body of the loop over the codebook; `best` has `match_index` and `match_distance`. -/
def matchCodeword (mCodebook pVector : TMatrix α) (best : Nat × WithTop α) (i : Nat) :
    Option (Nat × WithTop α) := do
  let codeword := mCodebook.data.drop (mCodebook.mColCount * i)
  let distance ← distanceFrom pVector.data codeword best.2 (List.range mCodebook.mColCount) 0
  some (if (distance : WithTop α) < best.2 then (i, (distance : WithTop α)) else best)

/-- `label_for`. -/
def labelFor (mCodebook pVector : TMatrix α) : Option Int32 := do
  let best ← (List.range mCodebook.mRowCount).foldlM (matchCodeword mCodebook pVector) (0, ⊤)
  some (Int32.ofNat best.1)

end Search

/-! ## Distances -/

section Distances

open Finset (sum_range_succ)

variable {α : Type} [CommRing α] [LinearOrder α] [IsStrictOrderedRing α] {vector codeword : List α}
  {x c : Nat → α} {cols i j n : Nat} {matchDistance : WithTop α}

/-- The value in a row and a column. -/
def entry (m : TMatrix α) (i j : Nat) : α := (m.data[i * m.mColCount + j]?).getD 0

/-- The square of the distance of a vector and a codeword. -/
def squaredDistance (mCodebook pVector : TMatrix α) (i : Nat) : α :=
  ∑ j ∈ Finset.range mCodebook.mColCount,
    (entry pVector 0 j - entry mCodebook i j) * (entry pVector 0 j - entry mCodebook i j)

theorem sum_mono {term : Nat → α} (hterm : ∀ j, 0 ≤ term j) (h : n ≤ cols) :
    ∑ j ∈ Finset.range n, term j ≤ ∑ j ∈ Finset.range cols, term j :=
  Finset.sum_le_sum_of_subset_of_nonneg (Finset.range_subset_range.mpr h) fun j _ _ => hterm j

/-- The loop gives the distance, or gives up with a part of it that is too much. -/
theorem distanceFrom_spec (matchDistance : WithTop α)
    (hvector : ∀ j < cols, vector[j]? = some (x j))
    (hcodeword : ∀ j < cols, codeword[j]? = some (c j)) (hcols : j + n = cols) :
    ∃ d, distanceFrom vector codeword matchDistance (List.range' j n)
        (∑ l ∈ Finset.range j, (x l - c l) * (x l - c l)) = some d ∧
      (d = ∑ l ∈ Finset.range cols, (x l - c l) * (x l - c l) ∨
        matchDistance < d ∧ d ≤ ∑ l ∈ Finset.range cols, (x l - c l) * (x l - c l)) := by
  induction n generalizing j with
  | zero => exact ⟨_, rfl, Or.inl (by rw [← hcols, Nat.add_zero])⟩
  | succ n ih =>
    have hj : j < cols := by omega
    obtain ⟨d, hd, hspec⟩ := ih (by omega : j + 1 + n = cols)
    rw [List.range'_succ, distanceFrom, hvector j hj, hcodeword j hj]
    simp only [Option.bind_eq_bind, Option.bind_some, ← sum_range_succ]
    by_cases habove : matchDistance < ↑(∑ l ∈ Finset.range (j + 1), (x l - c l) * (x l - c l))
    · rw [if_pos habove]
      exact ⟨_, rfl, Or.inr ⟨habove, sum_mono (fun l => mul_self_nonneg _) hj⟩⟩
    · rw [if_neg habove]
      exact ⟨d, hd, hspec⟩

omit [LinearOrder α] [IsStrictOrderedRing α] in
/-- What a matrix that owns its cells has in a row. -/
theorem getElem?_row (m : OwnedMatrix α) (hi : i < m.mRowCount) (hj : j < m.mColCount) :
    (m.data.drop (m.mColCount * i))[j]? = some (entry m.toTMatrix i j) := by
  have hcells := m.owned.cells
  have hin : i * m.mColCount + j < m.mRowCount * m.mColCount := rowMajor_lt hi hj
  rw [List.getElem?_drop, Nat.mul_comm, entry, List.getElem?_eq_getElem (by omega),
    Option.getD_some]

/-- One more codeword. -/
theorem matchCodeword_spec {mCodebook pVector : OwnedMatrix α} {best : Nat × WithTop α}
    (hi : i < mCodebook.mRowCount) (hvector : 1 ≤ pVector.mRowCount)
    (hcols : pVector.mColCount = mCodebook.mColCount)
    (hbest : BestSoFar (squaredDistance mCodebook.toTMatrix pVector.toTMatrix) i best) :
    ∃ next, matchCodeword mCodebook.toTMatrix pVector.toTMatrix best i = some next ∧
      BestSoFar (squaredDistance mCodebook.toTMatrix pVector.toTMatrix) (i + 1) next := by
  have hfirst : ∀ j < mCodebook.mColCount,
      pVector.data[j]? = some (entry pVector.toTMatrix 0 j) := by
    intro j hj
    have hread := getElem?_row pVector hvector (by rwa [hcols] : j < pVector.mColCount)
    rwa [Nat.mul_zero, List.drop_zero] at hread
  obtain ⟨d, hd, hspec⟩ := distanceFrom_spec best.2 hfirst
    (fun j hj => getElem?_row mCodebook hi hj) (Nat.zero_add _)
  rw [Finset.sum_range_zero, ← List.range_eq_range'] at hd
  refine ⟨better best i d, ?_, hbest.better hspec⟩
  rw [matchCodeword, hd]
  rfl

/-- The label is the first row of the codebook with the least distance, as an `int`. -/
theorem label_for_nearest (mCodebook pVector : OwnedMatrix α) (hrows : 1 ≤ mCodebook.mRowCount)
    (hvector : 1 ≤ pVector.mRowCount) (hcols : pVector.mColCount = mCodebook.mColCount) :
    ∃ i, IsFirstMin (squaredDistance mCodebook.toTMatrix pVector.toTMatrix)
        mCodebook.mRowCount i ∧
      labelFor mCodebook.toTMatrix pVector.toTMatrix = some (Int32.ofNat i) := by
  have hnone : BestSoFar (squaredDistance mCodebook.toTMatrix pVector.toTMatrix) 0 (0, ⊤) := rfl
  obtain ⟨best, hbest, hspec⟩ := foldlM_range _ hnone fun i hi best hsofar =>
    matchCodeword_spec hi hvector hcols hsofar
  obtain ⟨n, hn⟩ := Nat.exists_eq_succ_of_ne_zero (Nat.ne_of_gt hrows)
  rw [hn] at hspec ⊢
  refine ⟨best.1, hspec.1, ?_⟩
  rw [labelFor, hbest]
  rfl

/-- Three codewords, the last one a repetition. -/
def threeCodewords : OwnedMatrix Int :=
  ⟨⟨[0, 0, 3, 4, 3, 4], 3, 2, "no error"⟩, ⟨by decide, by decide⟩⟩

def oneVector : OwnedMatrix Int := ⟨⟨[2, 5], 1, 2, "no error"⟩, ⟨by decide, by decide⟩⟩

/-- Of two codewords that are as near, the first one. -/
theorem label_for_nearest_second :
    labelFor threeCodewords.toTMatrix oneVector.toTMatrix = some 1 ∧
      ∃ i, IsFirstMin (squaredDistance threeCodewords.toTMatrix oneVector.toTMatrix) 3 i ∧
        labelFor threeCodewords.toTMatrix oneVector.toTMatrix = some (Int32.ofNat i) :=
  ⟨by decide, label_for_nearest threeCodewords oneVector (by decide) (by decide) rfl⟩

end Distances

end Rubyk.VQ
