/-
  `Lib.Logs`: histories, as lists that grow at their end.
-/
import Mathlib.Data.List.Induction
import Mathlib.Data.List.Infix

set_option autoImplicit false

namespace Rubyk.Lib

variable {α : Type*} {log p q : List α} {o x : α}

/-- The two ways to find an entry in a history whose last entry is `o`. -/
theorem snoc_eq_append_cons (h : log ++ [o] = p ++ x :: q) :
    (q = [] ∧ log = p ∧ o = x) ∨ ∃ q', q = q' ++ [o] ∧ log = p ++ x :: q' := by
  rcases List.eq_nil_or_concat' q with rfl | ⟨q', y, rfl⟩
  · obtain ⟨rfl, hx⟩ := List.append_inj' h rfl
    exact Or.inl ⟨rfl, rfl, by simpa using hx⟩
  · have h' : log ++ [o] = (p ++ x :: q') ++ [y] := by simpa using h
    obtain ⟨hlog, hy⟩ := List.append_inj' h' rfl
    obtain rfl : o = y := by simpa using hy
    exact Or.inr ⟨q', rfl, hlog⟩

/-- A prefix of a history that ends in an entry other than the newest one is a
prefix of the older history. -/
theorem prefix_of_snoc_prefix_snoc (h : p ++ [x] <+: log ++ [o]) (hne : x ≠ o) :
    p ++ [x] <+: log := by
  rcases List.prefix_concat_iff.mp h with heq | hle
  · exact absurd (by simpa using (List.append_inj' heq rfl).2) hne
  · exact hle

/-- The newest entry of a history. -/
theorem snoc_inj (h : log ++ [o] = p ++ [x]) : log = p ∧ o = x := by
  obtain ⟨hlog, ho⟩ := List.append_inj' h rfl
  exact ⟨hlog, by simpa using ho⟩

end Rubyk.Lib
