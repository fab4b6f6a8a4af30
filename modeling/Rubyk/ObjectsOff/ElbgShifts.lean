/-
  ObjectsOff/ElbgShifts.lean --- `do_shiftings` of `elbg.c`: codewords are moved from cells with
  a low error to cells with a high one.

  `Shiftable` is what holds between two shifts.  A shift keeps it, so the search for the next
  cells ends inside of the codebook, whatever the random numbers are.
-/
import Rubyk.ObjectsOff.ElbgNumbers

set_option autoImplicit false

namespace Rubyk

open Lib

namespace Elbg

/-! ## The closest codeword -/

section Closest

variable {index : Nat} {codeword : List Int} {others : List (List Int × Nat)} {best : Nat × Int}

/-- The search finds another codeword, if there is one that is not too far. -/
theorem closestFrom_ne
    (hnear : ∀ other ∈ others, distanceLimited other.1 codeword intMax < intMax)
    (hbest : best.1 ≠ index ∨ best.2 = intMax ∧ ∃ other ∈ others, other.2 ≠ index) :
    (closestFrom index codeword others best).1 ≠ index := by
  induction others generalizing best with
  | nil =>
    rcases hbest with hpick | ⟨-, other, hother, -⟩
    · exact hpick
    · cases hother
  | cons other others ih =>
    obtain ⟨pick, diffMin⟩ := best
    rw [closestFrom]
    split
    · rename_i hother
      refine ih (fun o ho => hnear o (List.mem_cons_of_mem _ ho)) ?_
      split
      · exact Or.inl hother
      · rename_i hge
        rcases hbest with hpick | ⟨rfl, -⟩
        · exact Or.inl hpick
        · exact absurd (hnear other List.mem_cons_self) hge
    · rename_i heq
      refine ih (fun o ho => hnear o (List.mem_cons_of_mem _ ho))
        (hbest.imp_right fun ⟨hmax, o, ho, hne⟩ => ⟨hmax, o, ?_, hne⟩)
      rcases List.mem_cons.mp ho with rfl | ho
      · exact absurd hne heq
      · exact ho

theorem closestFrom_mem (index : Nat) (codeword : List Int) (others : List (List Int × Nat))
    (best : Nat × Int) : (closestFrom index codeword others best).1 = best.1 ∨
      ∃ other ∈ others, (closestFrom index codeword others best).1 = other.2 := by
  induction others generalizing best with
  | nil => exact Or.inl rfl
  | cons other others ih =>
    obtain ⟨pick, diffMin⟩ := best
    rw [closestFrom]
    split
    · refine (ih _).elim (fun hbest => ?_) fun ⟨o, ho, heq⟩ =>
        Or.inr ⟨o, List.mem_cons_of_mem other ho, heq⟩
      rw [hbest]
      split
      · exact Or.inr ⟨other, List.mem_cons_self, rfl⟩
      · exact Or.inl rfl
    · exact (ih _).imp_right fun ⟨o, ho, heq⟩ => ⟨o, List.mem_cons_of_mem other ho, heq⟩

end Closest

/-! ## Shifts -/

section Shifts

variable {R : Type} {points : List (List Int)} {dim numCB space B : Nat} {s : Elbg R}
  {luc huc cluc : Nat}

/-- No two codewords are too far from each other. -/
def Near (codebook : List (List Int)) : Prop :=
  ∀ a ∈ codebook, ∀ b ∈ codebook, distanceLimited a b intMax < intMax

/-- What holds between two shifts. -/
structure Shiftable (points : List (List Int)) (dim numCB space B : Nat) (s : Elbg R) : Prop where
  partition : Partition points.length s.cells s.nearestCb
  space : space ≤ s.nearestCb.length
  cells : s.cells.length = numCB
  utility : s.utility.length = numCB
  bounds : ∀ u ∈ s.utility, 0 ≤ u ∧ u ≤ (points.length * maxDistance dim B : Nat)
  codebook : s.codebook.length = numCB
  near : Near s.codebook
  inc : s.utilityInc = utilityIncFrom numCB s.error s.utility 0

/-- The search for a high utility cell ends inside of the codebook. -/
theorem Shiftable.getHighUtilityCell_spec (h : Shiftable points dim numCB space B s)
    (hfits : Fits points.length dim numCB B) (avRandom : R → Nat × R) {last : Int}
    (hlast : s.utilityInc[numCB - 1]? = some last) (hne : last ≠ 0) :
    ∃ huc randState, s.getHighUtilityCell numCB avRandom =
      some (huc, { s with randState := randState }) ∧ huc < numCB := by
  have hlength : s.utilityInc.length = numCB := by
    rw [h.inc, length_utilityIncFrom, h.utility]
  have hmem := List.mem_of_getElem? hlast
  have hbounds : 0 ≤ last ∧ last ≤ 2147483647 := by
    rw [h.inc] at hmem
    have hsmall : (0 + s.utility.length) * (points.length * maxDistance dim B) ≤ 2147483647 := by
      rw [Nat.zero_add, h.utility]
      exact hfits.errors
    exact utilityIncFrom_bounds s.error h.bounds (by simp) hsmall last hmem
  obtain ⟨r, hr⟩ : ∃ r : Int, r =
    int32 ((avRandom s.randState).1 % (last % 4294967296).toNat : Nat) := ⟨_, rfl⟩
  have hle : r ≤ last := by
    have hlt : (avRandom s.randState).1 % (last % 4294967296).toNat <
        (last % 4294967296).toNat := Nat.mod_lt _ (by omega)
    rw [hr, int32_eq (by omega)]
    omega
  have hfound : (s.utilityInc.findIdx? fun inc => r ≤ inc).isSome := by
    rw [List.findIdx?_isSome]
    exact List.any_eq_true.mpr ⟨last, hmem, by simpa using hle⟩
  obtain ⟨huc, hhuc⟩ := Option.isSome_iff_exists.mp hfound
  refine ⟨huc, (avRandom s.randState).2, ?_, ?_⟩
  · simp only [getHighUtilityCell, hlast, Option.bind_eq_bind, Option.bind_some, ← hr, hhuc]
  · have hlt := (List.findIdx?_eq_some_iff_getElem.mp hhuc).1
    omega

/-- The closest codeword is another one. -/
theorem Shiftable.getClosestCodebook_spec (h : Shiftable points dim numCB space B s)
    (htwo : 2 ≤ numCB) (hluc : luc < numCB) :
    ∃ cluc, s.getClosestCodebook luc = some cluc ∧ cluc < numCB ∧ luc ≠ cluc := by
  have hlt : luc < s.codebook.length := by
    rw [h.codebook]
    exact hluc
  have hcodeword := List.getElem?_eq_getElem hlt
  refine ⟨_, by rw [getClosestCodebook, hcodeword]; rfl, ?_, Ne.symm (closestFrom_ne ?_ ?_)⟩
  · rcases closestFrom_mem luc s.codebook[luc] s.codebook.zipIdx (0, intMax) with heq | ⟨o, ho, heq⟩
    · rw [heq]
      exact Nat.lt_of_lt_of_le Nat.zero_lt_two htwo
    · have hbound := (List.mem_zipIdx' ho).1
      rw [heq, ← h.codebook]
      exact hbound
  · intro other hother
    exact h.near _ (List.fst_mem_of_mem_zipIdx hother) _ (List.getElem_mem hlt)
  · obtain ⟨i, hi, hne⟩ : ∃ i < numCB, i ≠ luc := by
      by_cases hzero : luc = 0
      · exact ⟨1, htwo, by omega⟩
      · exact ⟨0, by omega, by omega⟩
    have hi' : i < s.codebook.length := by
      rw [h.codebook]
      exact hi
    exact Or.inr ⟨rfl, (s.codebook[i], i), List.mk_mem_zipIdx_iff_getElem?.mpr
      (List.getElem?_eq_getElem hi'), hne⟩

theorem pointsOf_bounded {cell : List Nat} {ps : List (List Int)} (hpoints : Bounded dim B points)
    (h : pointsOf points cell = some ps) : ps.length = cell.length ∧ Bounded dim B ps := by
  obtain ⟨hlength, hmem⟩ := mapM_spec h
  refine ⟨hlength, fun p hp => ?_⟩
  obtain ⟨index, -, hindex⟩ := hmem p hp
  exact hpoints p (List.mem_of_getElem? hindex)

/-- The points of a cell, which are as bounded as all. -/
theorem pointsOf_spec {cell : List Nat} (hpoints : Bounded dim B points)
    (h : ∀ index ∈ cell, index < points.length) :
    ∃ ps, pointsOf points cell = some ps ∧ ps.length = cell.length ∧ Bounded dim B ps := by
  have hread : pointsOf points cell = some (cell.map fun index => (points[index]?).getD []) :=
    mapM_eq_some fun index hindex => by
      rw [List.getElem?_eq_getElem (h index hindex), Option.getD_some]
  exact ⟨_, hread, pointsOf_bounded hpoints hread⟩

/-- The errors that a shift gives to its three cells are those of at most all points. -/
theorem candidate_bounds {n : Nat} {low high closest : List (List Int)} (htwo : 2 ≤ numCB)
    (hfits : Fits n dim numCB B) (hmax : maxDistance dim B ≤ 2147483647)
    (hlow : Bounded dim B low) (hhigh : Bounded dim B high) (hclosest : Bounded dim B closest)
    (hlength : low.length + closest.length ≤ n) (hlength' : high.length ≤ n)
    (centroids : List Int × List Int) {centroid : List Int} (hcentroid : centroid =
      vectDivision (sumOf dim (low ++ closest)) (low ++ closest).length) :
    (0 ≤ int32 (evalErrorCell centroid low + evalErrorCell centroid closest) ∧
      int32 (evalErrorCell centroid low + evalErrorCell centroid closest) ≤
        (n * maxDistance dim B : Nat)) ∧
    (0 ≤ (simpleLbg dim centroids high).2.1 ∧
      (simpleLbg dim centroids high).2.1 ≤ (n * maxDistance dim B : Nat)) ∧
    0 ≤ (simpleLbg dim centroids high).2.2 ∧
      (simpleLbg dim centroids high).2.2 ≤ (n * maxDistance dim B : Nat) := by
  have hone := hfits.one (Nat.le_of_succ_le htwo)
  have herrors {m : Nat} (hm : m ≤ n) : m * maxDistance dim B ≤ n * maxDistance dim B :=
    Nat.mul_le_mul_right _ hm
  have hsums {m : Nat} (hm : m ≤ n) : m * (B + 1) ≤ 2147483647 :=
    (Nat.mul_le_mul_right _ hm).trans hfits.sums
  have hboth : Bounded dim B (low ++ closest) := fun p hp =>
    (List.mem_append.mp hp).elim (hlow p) (hclosest p)
  have hwithin : Within dim B centroid := by
    rw [hcentroid]
    exact vectDivision_within hboth (hsums (by rwa [List.length_append]))
  have hfirst := evalErrorCell_bounds hwithin hlow hmax
    ((herrors (Nat.le_of_add_right_le hlength)).trans hone)
  have hsecond := evalErrorCell_bounds hwithin hclosest hmax
    ((herrors (Nat.le_of_add_left_le hlength)).trans hone)
  have hsum := herrors hlength
  have hhighErrors := herrors hlength'
  obtain ⟨hlbg, hlbg'⟩ := simpleLbg_bounds centroids hhigh hmax (hsums hlength')
    (hhighErrors.trans hone)
  rw [Nat.add_mul] at hsum
  rw [int32_eq (by omega)]
  omega

/-- What the errors and the assignment of one cell become. -/
theorem updateUtilityAndNCb_spec (s : Elbg R) {idx : Nat} (newutility : Int) {cell : List Nat}
    (hutility : idx < s.utility.length) (hcell : s.cells[idx]? = some cell)
    (hroom : ∀ index ∈ cell, index < s.nearestCb.length) :
    ∃ utility nearest, s.updateUtilityAndNCb idx newutility =
        some { s with utility := utility, nearestCb := nearest } ∧
      utility.length = s.utility.length ∧
      (∀ u ∈ utility, u = newutility ∨ u ∈ s.utility) ∧
      nearest.length = s.nearestCb.length ∧
      ∀ index : Nat, nearest[index]? = if index ∈ cell then some idx else s.nearestCb[index]? := by
  obtain ⟨utility, hstore, hlength, hget⟩ := store_spec hutility newutility
  obtain ⟨nearest, hnearest, hlength', hget'⟩ := foldlM_store_spec idx hroom
  refine ⟨utility, nearest, ?_, hlength, fun u hu => ?_, hlength', hget'⟩
  · simp only [updateUtilityAndNCb, hstore, hcell, hnearest, Option.bind_eq_bind, Option.bind_some]
  · obtain ⟨k, hk⟩ := List.mem_iff_getElem?.mp hu
    rw [hget] at hk
    split at hk
    · exact Or.inl (Option.some.inj hk).symm
    · exact Or.inr (List.mem_of_getElem? hk)

/-- The three cells of a shift get their errors, and their points are told. -/
theorem updates_spec (s : Elbg R) (numCB : Nat) (newutilities : Int × Int) (newutility : Int)
    {low high closest : List Nat} (hluc : luc < s.utility.length) (hhuc : huc < s.utility.length)
    (hcluc : cluc < s.utility.length) (hlow : s.cells[luc]? = some low)
    (hhigh : s.cells[huc]? = some high) (hclosest : s.cells[cluc]? = some closest)
    (hroom : ∀ cell ∈ s.cells, ∀ index ∈ cell, index < s.nearestCb.length) :
    ∃ utility nearest,
      (s.updateUtilityAndNCb luc newutilities.1 >>= fun s =>
        s.updateUtilityAndNCb huc newutilities.2 >>= fun s =>
          s.updateUtilityAndNCb cluc newutility >>= fun s =>
            some (s.evaluateUtilityInc numCB)) =
        some (evaluateUtilityInc numCB { s with utility := utility, nearestCb := nearest }) ∧
      utility.length = s.utility.length ∧
      (∀ u ∈ utility, u = newutility ∨ u = newutilities.2 ∨ u = newutilities.1 ∨ u ∈ s.utility) ∧
      nearest.length = s.nearestCb.length ∧
      ∀ index : Nat, nearest[index]? = if index ∈ closest then some cluc
        else if index ∈ high then some huc else if index ∈ low then some luc
        else s.nearestCb[index]? := by
  obtain ⟨utility₁, nearest₁, hupdate₁, hlength₁, hmem₁, hroom₁, hget₁⟩ :=
    s.updateUtilityAndNCb_spec newutilities.1 hluc hlow (hroom low (List.mem_of_getElem? hlow))
  obtain ⟨utility₂, nearest₂, hupdate₂, hlength₂, hmem₂, hroom₂, hget₂⟩ :=
    updateUtilityAndNCb_spec { s with utility := utility₁, nearestCb := nearest₁ } newutilities.2
      (hlength₁.symm ▸ hhuc) hhigh
      fun i hi => hroom₁.symm ▸ hroom high (List.mem_of_getElem? hhigh) i hi
  obtain ⟨utility₃, nearest₃, hupdate₃, hlength₃, hmem₃, hroom₃, hget₃⟩ :=
    updateUtilityAndNCb_spec { s with utility := utility₂, nearestCb := nearest₂ } newutility
      (hlength₂.symm ▸ hlength₁.symm ▸ hcluc) hclosest
      fun i hi => hroom₂.symm ▸ hroom₁.symm ▸ hroom closest (List.mem_of_getElem? hclosest) i hi
  refine ⟨utility₃, nearest₃, ?_, hlength₃.trans (hlength₂.trans hlength₁), fun u hu => ?_,
    hroom₃.trans (hroom₂.trans hroom₁), fun index => ?_⟩
  · simp only [hupdate₁, hupdate₂, hupdate₃, Option.bind_eq_bind, Option.bind_some]
  · exact (hmem₃ u hu).imp_right fun hu => (hmem₂ u hu).imp_right fun hu => hmem₁ u hu
  · rw [hget₃]
    dsimp only
    rw [hget₂]
    dsimp only
    rw [hget₁]

/-- A shift that is made or not. -/
theorem Shiftable.tryShiftCandidate_spec (h : Shiftable points dim numCB space B s)
    (hpoints : Bounded dim B points) (hfits : Fits points.length dim numCB B)
    (hmax : maxDistance dim B ≤ 2147483647) (htwo : 2 ≤ numCB) (hluc : luc < numCB)
    (hhuc : huc < numCB) (hcluc : cluc < numCB) (hne : luc ≠ cluc) :
    ∃ s', s.tryShiftCandidate points dim numCB luc huc cluc = some s' ∧
      Shiftable points dim numCB space B s' ∧ s'.codebook = s.codebook := by
  have hcells := h.cells
  have hutility := h.utility
  have hall : ∀ index ∈ s.cells.flatten, index < points.length := fun index hindex =>
    List.mem_range.mp (h.partition.perm.subset hindex)
  have hread (k : Nat) (hk : k < numCB) : ∃ u cell ps, s.utility[k]? = some u ∧
      s.cells[k]? = some cell ∧ pointsOf points cell = some ps ∧ ps.length = cell.length ∧
      Bounded dim B ps := by
    have hcell := List.getElem?_eq_getElem (hcells.symm ▸ hk)
    obtain ⟨ps, hps⟩ := pointsOf_spec hpoints fun index hindex => h.partition.lt hcell hindex
    exact ⟨_, _, ps, List.getElem?_eq_getElem (hutility.symm ▸ hk), hcell, hps⟩
  obtain ⟨uLow, low, psLow, huLow, hlow, hpsLow, hlengthLow, hboundedLow⟩ := hread luc hluc
  obtain ⟨uHigh, high, psHigh, huHigh, hhigh, hpsHigh, hlengthHigh, hboundedHigh⟩ :=
    hread huc hhuc
  obtain ⟨uClosest, closest, psClosest, huClosest, hclosest, hpsClosest, hlengthClosest,
    hboundedClosest⟩ := hread cluc hcluc
  obtain ⟨centroid, hcentroid⟩ : ∃ centroid, centroid =
    vectDivision (sumOf dim (psLow ++ psClosest)) (psLow ++ psClosest).length := ⟨_, rfl⟩
  have hlengths : psLow.length + psClosest.length ≤ points.length := by
    rw [hlengthLow, hlengthClosest]
    exact length_add_length_le h.partition.perm hlow hclosest hne
  have hlength : psHigh.length ≤ points.length := by
    rw [hlengthHigh]
    exact length_cell_le h.partition.perm hhigh
  obtain ⟨hnewutility, hnewutilities⟩ := candidate_bounds htwo hfits hmax hboundedLow
    hboundedHigh hboundedClosest hlengths hlength (getNewCentroids dim psHigh) hcentroid
  simp only [tryShiftCandidate, huLow, huHigh, huClosest, hlow, hhigh, hclosest,
    Option.bind_eq_bind, Option.bind_some, hpsLow, hpsHigh, hpsClosest, ← hcentroid]
  generalize simpleLbg dim (getNewCentroids dim psHigh) psHigh = lbg at hnewutilities ⊢
  generalize int32 (evalErrorCell centroid psLow + evalErrorCell centroid psClosest) =
    newutility at hnewutility ⊢
  split
  · obtain ⟨cells', hshift, hlength, hperm, hsame⟩ := shiftCodebook_spec lbg.1 hne
      (hcells.symm ▸ hluc) (hcells.symm ▸ hhuc) (hcells.symm ▸ hcluc) hall
    have hcell (k : Nat) (hk : k < numCB) : ∃ cell, cells'[k]? = some cell :=
      ⟨_, List.getElem?_eq_getElem (by omega : k < cells'.length)⟩
    obtain ⟨low', hlow'⟩ := hcell luc hluc
    obtain ⟨high', hhigh'⟩ := hcell huc hhuc
    obtain ⟨closest', hclosest'⟩ := hcell cluc hcluc
    have hroom : ∀ cell ∈ cells', ∀ index ∈ cell, index < s.nearestCb.length := by
      intro cell hcell index hindex
      have hflat := List.mem_flatten.mpr ⟨cell, hcell, hindex⟩
      exact Nat.lt_of_lt_of_le (hall index (hperm.subset hflat)) h.partition.room
    rw [hshift, Option.bind_some]
    generalize int32 (s.error + (_ - _)) = error
    obtain ⟨utility, nearest, hupdates, hlengthU, hmem, hlengthN, hget⟩ :=
      updates_spec { s with cells := cells', error := error } numCB lbg.2 newutility
        (hutility.symm ▸ hluc : luc < s.utility.length) (hutility.symm ▸ hhuc)
        (hutility.symm ▸ hcluc) hlow' hhigh' hclosest' hroom
    have hbounds : ∀ u ∈ utility, 0 ≤ u ∧ u ≤ (points.length * maxDistance dim B : Nat) := by
      intro u hu
      rcases hmem u hu with rfl | rfl | rfl | hu
      · exact hnewutility
      · exact hnewutilities.2
      · exact hnewutilities.1
      · exact h.bounds u hu
    refine ⟨evaluateUtilityInc numCB { s with
        cells := cells', error := error, utility := utility, nearestCb := nearest }, ?_,
      ⟨h.partition.renamed hperm hsame hlow' hhigh' hclosest' hlengthN hget,
        hlengthN.symm ▸ h.space, hlength.trans hcells, hlengthU.trans hutility, hbounds,
        h.codebook, h.near, rfl⟩, rfl⟩
    simpa only [Option.bind_eq_bind] using hupdates
  · exact ⟨s, rfl, h, rfl⟩

theorem Shiftable.shiftings_spec (h : Shiftable points dim numCB space B s)
    (hpoints : Bounded dim B points) (hfits : Fits points.length dim numCB B)
    (hmax : maxDistance dim B ≤ 2147483647) (avRandom : R → Nat × R) (htwo : 2 ≤ numCB)
    {lucs : List Nat} (hlucs : ∀ luc ∈ lucs, luc < numCB) :
    ∃ s', shiftings points dim numCB avRandom lucs s = some s' ∧
      Shiftable points dim numCB space B s' ∧ s'.codebook = s.codebook := by
  induction lucs generalizing s with
  | nil => exact ⟨s, rfl, h, rfl⟩
  | cons luc rest ih =>
    have hluc := hlucs luc List.mem_cons_self
    have hrest : ∀ l ∈ rest, l < numCB := fun l hl => hlucs l (List.mem_cons_of_mem luc hl)
    have hu : luc < s.utility.length := by
      rw [h.utility]
      exact hluc
    have hlength : numCB - 1 < s.utilityInc.length := by
      rw [h.inc, length_utilityIncFrom, h.utility]
      omega
    have hlast := List.getElem?_eq_getElem hlength
    rw [shiftings]
    simp only [List.getElem?_eq_getElem hu, hlast, Option.bind_eq_bind, Option.bind_some]
    split
    · split
      · exact ⟨s, rfl, h, rfl⟩
      · rename_i hne
        obtain ⟨huc, randState, hhigh, hhuc⟩ :=
          h.getHighUtilityCell_spec hfits avRandom hlast hne
        have hdrawn : Shiftable points dim numCB space B { s with randState := randState } :=
          ⟨h.partition, h.space, h.cells, h.utility, h.bounds, h.codebook, h.near, h.inc⟩
        obtain ⟨cluc, hclosest, hcluc, hother⟩ := hdrawn.getClosestCodebook_spec htwo hluc
        obtain ⟨s₁, htry, hshiftable, hcodebook⟩ :=
          hdrawn.tryShiftCandidate_spec hpoints hfits hmax htwo hluc hhuc hcluc hother
        obtain ⟨s', hshiftings, hshiftable', hcodebook'⟩ := ih hshiftable hrest
        refine ⟨s', ?_, hshiftable', hcodebook'.trans hcodebook⟩
        rw [hhigh, Option.bind_some, hclosest, Option.bind_some, htry, Option.bind_some,
          hshiftings]
    · exact ih h hrest

/-- Between the shifts and after them every point is in one cell.  A codebook of one codeword has
nothing to shift. -/
theorem doShiftings_spec (h : Shiftable points dim numCB space B (s.evaluateUtilityInc numCB))
    (hpoints : Bounded dim B points) (hfits : Fits points.length dim numCB B)
    (hmax : maxDistance dim B ≤ 2147483647) (avRandom : R → Nat × R)
    (hone : ∀ u, s.utility = [u] → s.error = u) :
    ∃ s', s.doShiftings points dim numCB avRandom = some s' ∧
      Shiftable points dim numCB space B s' ∧ s'.codebook = s.codebook := by
  rcases Nat.lt_or_ge 1 numCB with htwo | hle
  · exact h.shiftings_spec hpoints hfits hmax avRandom htwo
      fun luc hluc => List.mem_range.mp hluc
  · refine ⟨_, ?_, h, rfl⟩
    rw [doShiftings]
    rcases Nat.eq_zero_or_pos numCB with rfl | hpos
    · rfl
    · obtain rfl : numCB = 1 := Nat.le_antisymm hle hpos
      have hlength : s.utility.length = 1 := h.utility
      obtain ⟨u, hu⟩ := List.length_eq_one_iff.mp hlength
      have hbounds : 0 ≤ u ∧ u ≤ (points.length * maxDistance dim B : Nat) :=
        h.bounds u (by simp [evaluateUtilityInc, hu])
      have htotal := hfits.one (Nat.le_refl 1)
      have hnot : ¬ int32 ((1 : Nat) * u) < s.error := by
        rw [hone u hu, int32_eq (by omega)]
        omega
      simp only [List.range_one, shiftings, evaluateUtilityInc, hu, List.getElem?_cons_zero,
        Option.bind_eq_bind, Option.bind_some, if_neg hnot]

end Shifts

end Elbg

end Rubyk
