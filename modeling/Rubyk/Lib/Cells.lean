/-
  `Lib.Cells`: memory cells in a row, and counted loops over them.

  A list of cells is read and written one cell at a time (`cells[k]?`, `store`) or many
  at a time (`loads`, `stores`); outside of the cells nothing is defined.  Each
  operation has one rule, which says what can be read afterwards.  A counted loop has
  one rule too, for an invariant at every count, and two nested loops over rows and
  columns count in row-major order.

  Nothing here is about a particular program.
-/
import Mathlib.Data.List.Basic

set_option autoImplicit false

namespace Rubyk.Lib

variable {β σ : Type} {cells xs : List β} {k m n : Nat}

/-! ## Reading and writing -/

/-- Write a cell. -/
def store (cells : List β) (k : Nat) (x : β) : Option (List β) :=
  if k < cells.length then some (cells.set k x) else none

/-- Read `n` cells from cell `k` on. -/
def loads (cells : List β) (k n : Nat) : Option (List β) :=
  if k + n ≤ cells.length then some ((cells.drop k).take n) else none

/-- Write cells from cell `k` on. -/
def stores (cells : List β) (k : Nat) (xs : List β) : Option (List β) :=
  if k + xs.length ≤ cells.length
    then some (cells.take k ++ xs ++ cells.drop (k + xs.length)) else none

theorem store_spec (hk : k < cells.length) (x : β) :
    ∃ cells', store cells k x = some cells' ∧ cells'.length = cells.length ∧
      ∀ l : Nat, cells'[l]? = if l = k then some x else cells[l]? := by
  refine ⟨cells.set k x, if_pos hk, List.length_set, fun l => ?_⟩
  by_cases heq : l = k
  · rw [if_pos heq, heq, List.getElem?_set_self hk]
  · rw [if_neg heq, List.getElem?_set_ne (Ne.symm heq)]

theorem loads_spec (hk : k + n ≤ cells.length) :
    ∃ xs, loads cells k n = some xs ∧ xs.length = n ∧ ∀ l < n, xs[l]? = cells[k + l]? := by
  refine ⟨_, if_pos hk, ?_, fun l hl => ?_⟩
  · rw [List.length_take, List.length_drop]
    omega
  · rw [List.getElem?_take_of_lt hl, List.getElem?_drop]

theorem stores_spec (hk : k + xs.length ≤ cells.length) :
    ∃ cells', stores cells k xs = some cells' ∧ cells'.length = cells.length ∧
      ∀ l : Nat, cells'[l]? = if k ≤ l ∧ l < k + xs.length then xs[l - k]? else cells[l]? := by
  have hfirst : (cells.take k).length = k := by
    rw [List.length_take]
    omega
  refine ⟨_, if_pos hk, ?_, fun l => ?_⟩
  · simp only [List.length_append, hfirst, List.length_drop]
    omega
  · rcases Nat.lt_or_ge l k with hlt | hge
    · rw [if_neg (by omega), List.append_assoc, List.getElem?_append_left (by omega),
        List.getElem?_take_of_lt hlt]
    · rw [List.append_assoc, List.getElem?_append_right (by omega), hfirst]
      by_cases hin : l < k + xs.length
      · rw [if_pos ⟨hge, hin⟩, List.getElem?_append_left (by omega)]
      · rw [if_neg (by omega), List.getElem?_append_right (by omega), List.getElem?_drop]
        congr 1
        omega

/-- Reading in turn what there is. -/
theorem mapM_eq_some {γ : Type} {f : β → Option γ} {g : β → γ} (h : ∀ x ∈ xs, f x = some (g x)) :
    xs.mapM f = some (xs.map g) := by
  induction xs with
  | nil => rfl
  | cons x xs ih =>
    rw [List.mapM_cons, h x (by simp), ih fun y hy => h y (List.mem_cons_of_mem x hy)]
    rfl

/-- What reading in turn has read. -/
theorem mapM_spec {γ : Type} {f : β → Option γ} {ys : List γ}
    (h : xs.mapM f = some ys) : ys.length = xs.length ∧ ∀ y ∈ ys, ∃ x ∈ xs, f x = some y := by
  induction xs generalizing ys with
  | nil =>
    obtain rfl : [] = ys := Option.some.inj h
    exact ⟨rfl, by simp⟩
  | cons x xs ih =>
    rw [List.mapM_cons] at h
    obtain ⟨y, hy, h⟩ := Option.bind_eq_some_iff.mp h
    obtain ⟨zs, hzs, h⟩ := Option.bind_eq_some_iff.mp h
    obtain rfl : y :: zs = ys := Option.some.inj h
    obtain ⟨hlength, hmem⟩ := ih hzs
    refine ⟨congrArg (· + 1) hlength, fun z hz => ?_⟩
    rcases List.mem_cons.mp hz with rfl | hz
    · exact ⟨x, List.mem_cons_self, hy⟩
    · obtain ⟨w, hw, hfw⟩ := hmem z hz
      exact ⟨w, List.mem_cons_of_mem x hw, hfw⟩

/-! ## Counted loops -/

/-- The rule of a counted loop: an invariant at every count. -/
theorem foldlM_range {step : σ → Nat → Option σ} (P : Nat → σ → Prop) {s : σ} (hs : P 0 s)
    (hstep : ∀ k < n, ∀ s, P k s → ∃ t, step s k = some t ∧ P (k + 1) t) :
    ∃ t, (List.range n).foldlM step s = some t ∧ P n t := by
  induction n with
  | zero => exact ⟨s, rfl, hs⟩
  | succ n ih =>
    obtain ⟨t, ht, hP⟩ := ih fun k hk => hstep k (by omega)
    obtain ⟨u, hu, hP'⟩ := hstep n (Nat.lt_succ_self n) t hP
    refine ⟨u, ?_, hP'⟩
    rw [List.range_succ, List.foldlM_append, ht]
    simpa using hu

/-- A loop that writes cells keeps their number. -/
theorem length_of_foldlM_store {ks : List Nat} {index : Nat → Nat} {x : β} {cells' : List β}
    (h : ks.foldlM (fun cells k => store cells (index k) x) cells = some cells') :
    cells'.length = cells.length := by
  induction ks generalizing cells with
  | nil =>
    cases h
    rfl
  | cons k ks ih =>
    rw [List.foldlM_cons] at h
    by_cases hk : index k < cells.length
    · obtain ⟨written, hwritten, hlen, -⟩ := store_spec hk x
      rw [hwritten] at h
      exact (ih h).trans hlen
    · rw [store, if_neg hk] at h
      cases h

/-- The rule of two nested loops, over rows and columns. -/
theorem foldlM_rows {step : Nat → σ → Nat → Option σ} (P : Nat → σ → Prop) {s : σ} (hs : P 0 s)
    (hstep : ∀ i < m, ∀ j < n, ∀ s, P (i * n + j) s →
      ∃ t, step i s j = some t ∧ P (i * n + j + 1) t) :
    ∃ t, (List.range m).foldlM (fun s i => (List.range n).foldlM (step i) s) s = some t ∧
      P (m * n) t := by
  refine foldlM_range (fun i => P (i * n)) (by simpa using hs) fun i hi s hP => ?_
  obtain ⟨t, ht, hP'⟩ := foldlM_range (fun j => P (i * n + j)) hP (hstep i hi)
  exact ⟨t, ht, by rwa [Nat.succ_mul]⟩

/-- A cell of a row is in one row only. -/
theorem rowMajor_inj {i j k l : Nat} (hj : j < n) (hl : l < n) :
    i * n + j = k * n + l ↔ i = k ∧ j = l := by
  constructor
  · intro h
    have hi : i = k := by
      rcases Nat.lt_trichotomy i k with hlt | heq | hgt
      · have hle : (i + 1) * n ≤ k * n := Nat.mul_le_mul_right n hlt
        rw [Nat.succ_mul] at hle
        omega
      · exact heq
      · have hle : (k + 1) * n ≤ i * n := Nat.mul_le_mul_right n hgt
        rw [Nat.succ_mul] at hle
        omega
    subst hi
    exact ⟨rfl, by omega⟩
  · rintro ⟨rfl, rfl⟩
    rfl

theorem rowMajor_lt {i j : Nat} (hi : i < m) (hj : j < n) : i * n + j < m * n := by
  have hle : (i + 1) * n ≤ m * n := Nat.mul_le_mul_right n hi
  rw [Nat.succ_mul] at hle
  omega

end Rubyk.Lib
