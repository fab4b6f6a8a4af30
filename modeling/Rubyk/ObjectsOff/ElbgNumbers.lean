/-
  ObjectsOff/ElbgNumbers.lean --- how large the numbers of `elbg.c` become.

  Coordinates of at most `B` make a squared distance of at most `maxDistance`.  Errors are
  sums of distances and means come from sums of coordinates, so both have a bound as long as
  there are not too many points (`Fits`).  Within their bounds numbers do not wrap.
-/
import Mathlib.Data.List.Induction
import Rubyk.ObjectsOff.Elbg

set_option autoImplicit false

namespace Rubyk

open Lib

namespace Elbg

theorem int32_eq {x : Int} (h : x.natAbs ≤ 2147483647) : int32 x = x :=
  Int.bmod_eq_of_le (by omega) (by omega)

/-- A vector with coordinates of at most `B`. -/
def Within (dim B : Nat) (v : List Int) : Prop := v.length = dim ∧ ∀ x ∈ v, x.natAbs ≤ B

/-- Coordinates of at most `B`. -/
def Bounded (dim B : Nat) (vs : List (List Int)) : Prop := ∀ v ∈ vs, Within dim B v

/-- The largest squared distance between vectors with coordinates of at most `B`. -/
def maxDistance (dim B : Nat) : Nat := dim * (2 * B) ^ 2

/-- `n` points are few enough for their coordinates: the errors of `numCB` cells together are
below `INT_MAX`, and so are the sums of coordinates with what rounding adds. -/
structure Fits (n dim numCB B : Nat) : Prop where
  dim_pos : 1 ≤ dim
  bound_pos : 1 ≤ B
  errors : numCB * (n * maxDistance dim B) ≤ 2147483647
  sums : n * (B + 1) ≤ 2147483647

/-! ## Distances -/

section Distances

variable {dim B : Nat} {a b : List Int}

/-- The square of the distance. -/
def squaredDistance (a b : List Int) : Int :=
  (List.zipWith (fun x y => (x - y) * (x - y)) a b).sum

theorem squaredDistance_cons (x y : Int) (a b : List Int) :
    squaredDistance (x :: a) (y :: b) = (x - y) * (x - y) + squaredDistance a b := by
  simp [squaredDistance]

theorem squaredDistance_nonneg (a b : List Int) : 0 ≤ squaredDistance a b := by
  induction a generalizing b with
  | nil => simp [squaredDistance]
  | cons x a ih =>
    cases b with
    | nil => simp [squaredDistance]
    | cons y b =>
      rw [squaredDistance_cons]
      exact Int.add_nonneg (mul_self_nonneg _) (ih b)

/-- The loop gives the distance, or gives up when it is too much. -/
theorem distanceFrom_eq {limit dist : Int} (hpos : 0 ≤ dist) (hdist : dist ≤ limit)
    (hsmall : dist + squaredDistance a b ≤ 2147483647) :
    distanceFrom limit a b dist =
      if dist + squaredDistance a b ≤ limit then dist + squaredDistance a b else intMax := by
  induction a generalizing b dist with
  | nil => simp [distanceFrom, squaredDistance, hdist]
  | cons x a ih =>
    cases b with
    | nil => simp [distanceFrom, squaredDistance, hdist]
    | cons y b =>
      have hnonneg := squaredDistance_nonneg a b
      have hsquare : 0 ≤ (x - y) * (x - y) := mul_self_nonneg _
      rw [squaredDistance_cons] at hsmall ⊢
      rw [distanceFrom, int32_eq (by omega), ← Int.add_assoc]
      by_cases hmore : limit < dist + (x - y) * (x - y)
      · rw [if_pos hmore, if_neg (by omega)]
      · rw [if_neg hmore, ih (by omega) (by omega) (by omega)]

theorem distanceLimited_eq {limit : Int} (hlimit : 0 ≤ limit)
    (hsmall : squaredDistance a b ≤ 2147483647) : distanceLimited a b limit =
      if squaredDistance a b ≤ limit then squaredDistance a b else intMax := by
  rw [distanceLimited, distanceFrom_eq (Int.le_refl 0) hlimit (by omega), Int.zero_add]

theorem squaredDistance_le (ha : Within dim B a) (hb : ∀ y ∈ b, y.natAbs ≤ B) :
    squaredDistance a b ≤ maxDistance dim B := by
  obtain ⟨rfl, ha⟩ := ha
  induction a generalizing b with
  | nil => simp [squaredDistance]
  | cons x a ih =>
    cases b with
    | nil => simp [squaredDistance]
    | cons y b =>
      have hx := ha x List.mem_cons_self
      have hy := hb y List.mem_cons_self
      have hrest := ih (fun z hz => hb z (List.mem_cons_of_mem y hz))
        fun z hz => ha z (List.mem_cons_of_mem x hz)
      have hone : (x - y) * (x - y) ≤ ((2 * B) ^ 2 : Nat) := by
        rw [Nat.pow_two, Nat.cast_mul, ← Int.natAbs_mul_self' (x - y)]
        have hle : (x - y).natAbs ≤ 2 * B := by omega
        exact_mod_cast Nat.mul_le_mul hle hle
      rw [maxDistance] at hrest ⊢
      rw [squaredDistance_cons, List.length_cons, Nat.succ_mul, Nat.add_comm]
      push_cast at hone hrest ⊢
      omega

/-- The distance of bounded vectors is exact. -/
theorem distanceLimited_of_within (ha : Within dim B a) (hb : Within dim B b)
    (hsmall : maxDistance dim B ≤ 2147483647) :
    distanceLimited a b intMax = squaredDistance a b := by
  have hle := squaredDistance_le ha hb.2
  rw [distanceLimited_eq (by decide) (by omega), if_pos]
  rw [intMax]
  omega

theorem distanceLimited_bounds (ha : Within dim B a) (hb : Within dim B b)
    (hsmall : maxDistance dim B ≤ 2147483647) :
    0 ≤ distanceLimited a b intMax ∧ distanceLimited a b intMax ≤ maxDistance dim B := by
  rw [distanceLimited_of_within ha hb hsmall]
  exact ⟨squaredDistance_nonneg a b, squaredDistance_le ha hb.2⟩

end Distances

/-! ## Means -/

section Means

variable {dim B : Nat} {ps qs : List (List Int)}

/-- The exact sum of points. -/
def exactSum (dim : Nat) (ps : List (List Int)) : List Int :=
  ps.foldl (List.zipWith (· + ·)) (List.replicate dim 0)

/-- A number divided by `n`, rounded. -/
def rounded (n : Nat) (a : Int) : Int :=
  (if 0 < a then a + (n / 2 : Nat) else a - (n / 2 : Nat)).tdiv n

/-- The mean of points, rounded. -/
def meanOf (dim : Nat) (ps : List (List Int)) : List Int :=
  if 1 < ps.length then (exactSum dim ps).map (rounded ps.length) else exactSum dim ps

theorem sumOf_append_singleton (ps : List (List Int)) (p : List Int) :
    sumOf dim (ps ++ [p]) = addVect (sumOf dim ps) p := by
  simp [sumOf]

theorem exactSum_append_singleton (ps : List (List Int)) (p : List Int) :
    exactSum dim (ps ++ [p]) = List.zipWith (· + ·) (exactSum dim ps) p := by
  simp [exactSum]

theorem addVect_right_comm (sum a b : List Int) :
    addVect (addVect sum a) b = addVect (addVect sum b) a := by
  induction sum generalizing a b with
  | nil => simp [addVect]
  | cons x sum ih =>
    cases a with
    | nil => simp [addVect]
    | cons y a =>
      cases b with
      | nil => simp [addVect]
      | cons z b =>
        have hfirst : int32 (int32 (x + y) + z) = int32 (int32 (x + z) + y) := by
          simp only [int32, Int.bmod_add_bmod, add_right_comm]
        have hrest := ih a b
        simp only [addVect, List.zipWith_cons_cons, hfirst] at hrest ⊢
        rw [hrest]

theorem sumOf_perm (h : ps.Perm qs) : sumOf dim ps = sumOf dim qs :=
  h.foldl_eq' (fun a _ b _ sum => addVect_right_comm sum a b) _

theorem exactSum_bounded (h : Bounded dim B ps) :
    (exactSum dim ps).length = dim ∧ ∀ x ∈ exactSum dim ps, x.natAbs ≤ ps.length * B := by
  induction ps using List.reverseRecOn with
  | nil => simp [exactSum]
  | append_singleton ps p ih =>
    obtain ⟨hlength, hbound⟩ := ih fun q hq => h q (List.mem_append_left _ hq)
    obtain ⟨hlength', hbound'⟩ := h p (by simp)
    rw [exactSum_append_singleton]
    refine ⟨by rw [List.length_zipWith, hlength, hlength', Nat.min_self], fun x hx => ?_⟩
    obtain ⟨i, hi⟩ := List.mem_iff_getElem?.mp hx
    obtain ⟨a, b, ha, hb, rfl⟩ := List.getElem?_zipWith_eq_some.mp hi
    have hle := hbound a (List.mem_of_getElem? ha)
    have hle' := hbound' b (List.mem_of_getElem? hb)
    rw [List.length_append, List.length_singleton, Nat.succ_mul]
    omega

/-- The sum does not wrap. -/
theorem sumOf_eq_exactSum (h : Bounded dim B ps) (hsmall : ps.length * B ≤ 2147483647) :
    sumOf dim ps = exactSum dim ps := by
  induction ps using List.reverseRecOn with
  | nil => rfl
  | append_singleton ps p ih =>
    have hinit : Bounded dim B ps := fun q hq => h q (List.mem_append_left _ hq)
    have hall := (exactSum_bounded h).2
    rw [List.length_append, List.length_singleton] at hsmall hall
    have hle : ps.length * B ≤ (ps.length + 1) * B := Nat.mul_le_mul_right B (Nat.le_succ _)
    rw [exactSum_append_singleton] at hall ⊢
    rw [sumOf_append_singleton, ih hinit (hle.trans hsmall), addVect]
    refine List.ext_getElem? fun i => ?_
    rw [List.getElem?_zipWith, List.getElem?_zipWith]
    split
    · rename_i x y hx hy
      have hmem : x + y ∈ List.zipWith (· + ·) (exactSum dim ps) p :=
        List.mem_of_getElem? (i := i) (List.getElem?_zipWith_eq_some.mpr ⟨x, y, hx, hy, rfl⟩)
      rw [int32_eq ((hall _ hmem).trans hsmall)]
    · rfl

theorem natAbs_rounded_le {a : Int} {n : Nat} (hn : 1 < n) (ha : a.natAbs ≤ n * B) :
    (rounded n a).natAbs ≤ B := by
  have hround : (if 0 < a then a + (n / 2 : Nat) else a - (n / 2 : Nat)).natAbs < (B + 1) * n := by
    rw [Nat.succ_mul, Nat.mul_comm B n]
    split <;> omega
  rw [rounded, Int.natAbs_tdiv, Int.natAbs_natCast]
  exact Nat.le_of_lt_succ (Nat.div_lt_of_lt_mul (Nat.mul_comm _ _ ▸ hround))

theorem meanOf_within (h : Bounded dim B ps) : Within dim B (meanOf dim ps) := by
  obtain ⟨hlength, hbound⟩ := exactSum_bounded h
  rw [meanOf]
  split
  · rename_i hmany
    refine ⟨by rw [List.length_map, hlength], fun x hx => ?_⟩
    obtain ⟨y, hy, rfl⟩ := List.mem_map.mp hx
    exact natAbs_rounded_le hmany (hbound y hy)
  · rename_i hfew
    refine ⟨hlength, fun x hx => (hbound x hx).trans ?_⟩
    have hle : ps.length * B ≤ 1 * B := Nat.mul_le_mul_right B (Nat.not_lt.mp hfew)
    rwa [Nat.one_mul] at hle

/-- What is computed is the mean. -/
theorem vectDivision_eq_meanOf (h : Bounded dim B ps)
    (hsmall : ps.length * (B + 1) ≤ 2147483647) :
    vectDivision (sumOf dim ps) ps.length = meanOf dim ps := by
  have hsum : ps.length * B ≤ ps.length * (B + 1) := Nat.mul_le_mul_left _ (Nat.le_succ B)
  rw [sumOf_eq_exactSum h (hsum.trans hsmall), vectDivision, meanOf]
  split
  · refine List.map_congr_left fun x hx => ?_
    have hle := (exactSum_bounded h).2 x hx
    rw [Nat.mul_succ] at hsmall
    have hround : (if 0 < x then x + (ps.length / 2 : Nat)
        else x - (ps.length / 2 : Nat)).natAbs ≤ 2147483647 := by
      split <;> omega
    rw [roundedDiv, int32_eq hround, rounded]
  · rfl

theorem vectDivision_within (h : Bounded dim B ps)
    (hsmall : ps.length * (B + 1) ≤ 2147483647) :
    Within dim B (vectDivision (sumOf dim ps) ps.length) :=
  vectDivision_eq_meanOf h hsmall ▸ meanOf_within h

end Means

/-! ## Errors -/

section Errors

variable {dim B n numCB : Nat} {ps : List (List Int)}

theorem Fits.mono {m : Nat} (h : Fits n dim numCB B) (hle : m ≤ n) : Fits m dim numCB B :=
  ⟨h.dim_pos, h.bound_pos, (Nat.mul_le_mul_left _ (Nat.mul_le_mul_right _ hle)).trans h.errors,
    (Nat.mul_le_mul_right _ hle).trans h.sums⟩

/-- The errors of one cell. -/
theorem Fits.one (h : Fits n dim numCB B) (hpos : 1 ≤ numCB) :
    n * maxDistance dim B ≤ 2147483647 :=
  (Nat.le_mul_of_pos_left _ hpos).trans h.errors

/-- The errors of two cells. -/
theorem Fits.two (h : Fits n dim numCB B) (htwo : 2 ≤ numCB) :
    n * maxDistance dim B + n * maxDistance dim B ≤ 2147483647 := by
  have hle : 2 * (n * maxDistance dim B) ≤ numCB * (n * maxDistance dim B) :=
    Nat.mul_le_mul_right _ htwo
  have herrors := h.errors
  omega

/-- No distance is `INT_MAX`, which is odd. -/
theorem Fits.near (h : Fits n dim numCB B) (hpos : 1 ≤ numCB) (hn : 1 ≤ n) :
    maxDistance dim B < 2147483647 := by
  have hle : maxDistance dim B ≤ n * maxDistance dim B := Nat.le_mul_of_pos_left _ hn
  have hone := h.one hpos
  have heven : maxDistance dim B = 2 * (dim * (2 * (B * B))) := by
    rw [maxDistance, Nat.pow_two]
    ac_rfl
  omega

/-- The least number of points to take a sample of is in range. -/
theorem Fits.codewords (h : Fits n dim numCB B) (hle : numCB ≤ n) : 24 * numCB ≤ 2147483647 := by
  have hmax : 4 ≤ maxDistance dim B :=
    Nat.mul_le_mul h.dim_pos (Nat.pow_le_pow_left (Nat.mul_le_mul_left 2 h.bound_pos) 2)
  have hleast : numCB * (numCB * 4) ≤ 2147483647 :=
    (Nat.mul_le_mul_left _ (Nat.mul_le_mul hle hmax)).trans h.errors
  rcases Nat.lt_or_ge numCB 6 with hfew | hmany
  · omega
  · have hmore : numCB * 24 ≤ numCB * (numCB * 4) := Nat.mul_le_mul_left _ (by omega)
    omega

/-- Distances of `m` points are added to those of `k`. -/
theorem add_distance_bounds {m k D : Nat} (hsmall : m * D ≤ 2147483647) (hk : k + 1 ≤ m)
    {error dist : Int} (herror : 0 ≤ error ∧ error ≤ (k * D : Nat)) (hdist : 0 ≤ dist ∧ dist ≤ D) :
    0 ≤ int32 (error + dist) ∧ int32 (error + dist) ≤ ((k + 1) * D : Nat) := by
  have hle : (k + 1) * D ≤ m * D := Nat.mul_le_mul_right D hk
  rw [Nat.succ_mul] at hle ⊢
  rw [int32_eq (by omega)]
  omega

theorem evalErrorCell_bounds {centroid : List Int} (hcentroid : Within dim B centroid)
    (hps : Bounded dim B ps) (hmax : maxDistance dim B ≤ 2147483647)
    (hsmall : ps.length * maxDistance dim B ≤ 2147483647) :
    0 ≤ evalErrorCell centroid ps ∧
      evalErrorCell centroid ps ≤ (ps.length * maxDistance dim B : Nat) := by
  induction ps using List.reverseRecOn with
  | nil => simp [evalErrorCell]
  | append_singleton ps p ih =>
    have hle : ps.length * maxDistance dim B ≤ (ps ++ [p]).length * maxDistance dim B :=
      Nat.mul_le_mul_right _ (by simp)
    have herror := ih (fun q hq => hps q (List.mem_append_left _ hq)) (hle.trans hsmall)
    have hdist := distanceLimited_bounds hcentroid (hps p (by simp)) hmax
    have hstep := add_distance_bounds hsmall (by simp) herror hdist
    simpa [evalErrorCell] using hstep

/-- The errors of points that are added to one of two numbers each. -/
theorem foldl_utility_bounds {c c' : List Int} (hc : Within dim B c) (hc' : Within dim B c')
    (hps : Bounded dim B ps) (hmax : maxDistance dim B ≤ 2147483647)
    (hsmall : ps.length * maxDistance dim B ≤ 2147483647) {newutility : Int × Int}
    (hfold : newutility = ps.foldl (fun (newutility : Int × Int) p =>
      if distanceLimited c' p intMax < distanceLimited c p intMax
      then (newutility.1, int32 (newutility.2 + distanceLimited c' p intMax))
      else (int32 (newutility.1 + distanceLimited c p intMax), newutility.2)) (0, 0)) :
    (0 ≤ newutility.1 ∧ newutility.1 ≤ (ps.length * maxDistance dim B : Nat)) ∧
      0 ≤ newutility.2 ∧ newutility.2 ≤ (ps.length * maxDistance dim B : Nat) := by
  induction ps using List.reverseRecOn generalizing newutility with
  | nil => simp [hfold]
  | append_singleton ps p ih =>
    have hmore : ps.length * maxDistance dim B ≤ (ps ++ [p]).length * maxDistance dim B :=
      Nat.mul_le_mul_right _ (by simp)
    obtain ⟨hfirst, hsecond⟩ :=
      ih (fun q hq => hps q (List.mem_append_left _ hq)) (hmore.trans hsmall) rfl
    have hp := hps p (by simp)
    rw [List.foldl_append, List.foldl_cons, List.foldl_nil] at hfold
    rw [hfold]
    split
    · refine ⟨⟨hfirst.1, hfirst.2.trans (by exact_mod_cast hmore)⟩, ?_⟩
      simpa using
        add_distance_bounds hsmall (by simp) hsecond (distanceLimited_bounds hc' hp hmax)
    · refine ⟨?_, hsecond.1, hsecond.2.trans (by exact_mod_cast hmore)⟩
      simpa using add_distance_bounds hsmall (by simp) hfirst (distanceLimited_bounds hc hp hmax)

/-- Both errors of a cell that is divided. -/
theorem simpleLbg_bounds (centroid : List Int × List Int) (hps : Bounded dim B ps)
    (hmax : maxDistance dim B ≤ 2147483647) (hsums : ps.length * (B + 1) ≤ 2147483647)
    (hsmall : ps.length * maxDistance dim B ≤ 2147483647) :
    (0 ≤ (simpleLbg dim centroid ps).2.1 ∧
      (simpleLbg dim centroid ps).2.1 ≤ (ps.length * maxDistance dim B : Nat)) ∧
    0 ≤ (simpleLbg dim centroid ps).2.2 ∧
      (simpleLbg dim centroid ps).2.2 ≤ (ps.length * maxDistance dim B : Nat) := by
  have hpart (which : List Int → Bool) : Within dim B
      (vectDivision (sumOf dim (ps.filter which)) (ps.filter which).length) := by
    have hle : (ps.filter which).length * (B + 1) ≤ ps.length * (B + 1) :=
      Nat.mul_le_mul_right _ (List.length_filter_le _ _)
    exact vectDivision_within (fun p hp => hps p (List.mem_of_mem_filter hp)) (hle.trans hsums)
  exact foldl_utility_bounds (hpart _) (hpart _) hps hmax hsmall rfl

theorem length_utilityIncFrom (numCB : Nat) (error : Int) (us : List Int) (inc : Int) :
    (utilityIncFrom numCB error us inc).length = us.length := by
  induction us generalizing inc with
  | nil => rfl
  | cons u us ih => exact congrArg (· + 1) (ih _)

/-- The sums of errors do not wrap. -/
theorem utilityIncFrom_bounds {numCB k D : Nat} (error : Int) {us : List Int}
    (hus : ∀ u ∈ us, 0 ≤ u ∧ u ≤ D) {inc : Int} (hinc : 0 ≤ inc ∧ inc ≤ (k * D : Nat))
    (hsmall : (k + us.length) * D ≤ 2147483647) :
    ∀ x ∈ utilityIncFrom numCB error us inc, 0 ≤ x ∧ x ≤ 2147483647 := by
  induction us generalizing inc k with
  | nil => simp [utilityIncFrom]
  | cons u us ih =>
    rw [List.length_cons] at hsmall
    have hnext : 0 ≤ (if error < int32 (numCB * u) then int32 (inc + u) else inc) ∧
        (if error < int32 (numCB * u) then int32 (inc + u) else inc) ≤ ((k + 1) * D : Nat) := by
      split
      · exact add_distance_bounds hsmall (by omega) hinc (hus u List.mem_cons_self)
      · have hle : k * D ≤ (k + 1) * D := Nat.mul_le_mul_right D (Nat.le_succ k)
        omega
    intro x hx
    rcases List.mem_cons.mp hx with rfl | hx
    · have hle : (k + 1) * D ≤ (k + (us.length + 1)) * D := Nat.mul_le_mul_right D (by omega)
      omega
    · have heq : k + 1 + us.length = k + (us.length + 1) := by omega
      exact ih (fun v hv => hus v (List.mem_cons_of_mem u hv)) hnext (heq ▸ hsmall) x hx

end Errors

end Elbg

end Rubyk
