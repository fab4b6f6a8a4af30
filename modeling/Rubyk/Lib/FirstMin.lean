/-
  `Lib.FirstMin`: the first candidate with the least cost.

  A search looks at candidates 0, 1, 2, ... and keeps the best one so far with its cost; at
  the start there is none, and the cost is infinite.  A candidate may be given up early: it
  is enough to know that its cost exceeds the best one.  The rule is that one more candidate
  keeps what the search knows (`BestSoFar.better`).

  Nothing here is about a particular program.
-/
import Mathlib.Order.WithBot

set_option autoImplicit false

namespace Rubyk.Lib

variable {β : Type} [LinearOrder β] {cost : Nat → β} {n k l : Nat}

/-- Of the candidates below `n`, `k` is the first one with the least cost. -/
structure IsFirstMin (cost : Nat → β) (n k : Nat) : Prop where
  lt : k < n
  le : ∀ i < n, cost k ≤ cost i
  first : ∀ i < k, cost k < cost i

/-- What a search knows after `n` candidates. -/
def BestSoFar (cost : Nat → β) : Nat → Nat × WithTop β → Prop
  | 0, best => best = (0, ⊤)
  | n + 1, best => IsFirstMin cost (n + 1) best.1 ∧ best.2 = cost best.1

/-- Keep candidate `n` if it is better. -/
def better (best : Nat × WithTop β) (n : Nat) (d : β) : Nat × WithTop β :=
  if (d : WithTop β) < best.2 then (n, (d : WithTop β)) else best

theorem IsFirstMin.succ_of_lt (h : IsFirstMin cost n k) (hlt : cost n < cost k) :
    IsFirstMin cost (n + 1) n where
  lt := Nat.lt_succ_self n
  le := fun i hi => by
    rcases Nat.lt_succ_iff_lt_or_eq.mp hi with hin | rfl
    · exact le_trans (le_of_lt hlt) (h.le i hin)
    · exact le_refl _
  first := fun i hi => lt_of_lt_of_le hlt (h.le i hi)

theorem IsFirstMin.succ_of_le (h : IsFirstMin cost n k) (hle : cost k ≤ cost n) :
    IsFirstMin cost (n + 1) k where
  lt := Nat.lt_succ_of_lt h.lt
  le := fun i hi => by
    rcases Nat.lt_succ_iff_lt_or_eq.mp hi with hin | rfl
    · exact h.le i hin
    · exact hle
  first := h.first

/-- One more candidate, whose cost is known or was found to exceed the best one. -/
theorem BestSoFar.better {best : Nat × WithTop β} {d : β} (h : BestSoFar cost n best)
    (hd : d = cost n ∨ best.2 < d ∧ d ≤ cost n) :
    BestSoFar cost (n + 1) (better best n d) := by
  unfold Lib.better
  cases n with
  | zero =>
    cases h
    rcases hd with rfl | ⟨habove, -⟩
    · rw [if_pos (WithTop.coe_lt_top _)]
      refine ⟨⟨Nat.one_pos, fun i hi => ?_, fun i hi => absurd hi (Nat.not_lt_zero i)⟩, rfl⟩
      rw [Nat.lt_one_iff.mp hi]
    · exact absurd habove not_top_lt
  | succ n =>
    obtain ⟨hmin, hbest⟩ := h
    simp only [hbest, WithTop.coe_lt_coe] at hd ⊢
    rcases hd with rfl | ⟨habove, hle⟩
    · by_cases hlt : cost (n + 1) < cost best.1
      · rw [if_pos hlt]
        exact ⟨hmin.succ_of_lt hlt, rfl⟩
      · rw [if_neg hlt]
        exact ⟨hmin.succ_of_le (le_of_not_gt hlt), hbest⟩
    · -- given up: the candidate is not better
      rw [if_neg (not_lt_of_gt habove)]
      exact ⟨hmin.succ_of_le (le_trans (le_of_lt habove) hle), hbest⟩

end Rubyk.Lib
