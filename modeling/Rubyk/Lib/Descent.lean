/-
  `Lib.Descent`: recursion along a relation.

  A function that calls itself for every `b` with `R a b` ends on `a` when the paths
  from `a` have a bound on their length.  `EndsWithin R n a` says that there is no path
  of `n` steps from `a`.  On a finite type there is such a bound exactly when no cycle
  can be reached (`endsWithin_iff_no_cycle`).

  Nothing here is about a particular program.
-/
import Mathlib.Data.Fintype.Card
import Mathlib.Data.Fintype.Order
import Mathlib.Logic.Relation

set_option autoImplicit false

namespace Rubyk.Lib

variable {α : Type*} {R : α → α → Prop} {a b : α} {m n : Nat}

/-- Every path from `a` has fewer than `n` steps. -/
def EndsWithin (R : α → α → Prop) : Nat → α → Prop
  | 0, _ => False
  | n + 1, a => ∀ b, R a b → EndsWithin R n b

theorem EndsWithin.succ (h : EndsWithin R n a) : EndsWithin R (n + 1) a := by
  induction n generalizing a with
  | zero => exact h.elim
  | succ n ih => exact fun b hb => ih (h b hb)

theorem EndsWithin.mono (h : EndsWithin R n a) (hle : n ≤ m) : EndsWithin R m a := by
  induction hle with
  | refl => exact h
  | step _ ih => exact ih.succ

/-- What is reached ends too. -/
theorem EndsWithin.trans (h : EndsWithin R n a) (hab : Relation.ReflTransGen R a b) :
    EndsWithin R n b := by
  induction hab using Relation.ReflTransGen.head_induction_on generalizing n with
  | refl => exact h
  | head hac _ ih =>
    cases n with
    | zero => exact h.elim
    | succ n => exact (ih (h _ hac)).succ

/-- A path that ends never comes back to where it was. -/
theorem EndsWithin.not_transGen (h : EndsWithin R n a) : ¬ Relation.TransGen R a a := by
  induction n generalizing a with
  | zero => exact h.elim
  | succ n ih =>
    intro hcycle
    obtain ⟨b, hab, hba⟩ := Relation.TransGen.head'_iff.mp hcycle
    exact ih (h b hab) (Relation.TransGen.tail' hba hab)

/-- Where no cycle can be reached, every path ends. -/
theorem exists_endsWithin [Finite α]
    (h : ∀ b, Relation.ReflTransGen R a b → ¬ Relation.TransGen R b b) :
    ∃ n, EndsWithin R n a := by
  let Below := { b // Relation.ReflTransGen R a b }
  let After : Below → Below → Prop := fun c b => Relation.TransGen R b.1 c.1
  have : Finite Below := Subtype.finite
  have : IsTrans Below After := ⟨fun _ _ _ hab hbc => hbc.trans hab⟩
  have : Std.Irrefl After := ⟨fun b => h b.1 b.2⟩
  have hwf : WellFounded After := Finite.wellFounded_of_trans_of_irrefl After
  have hall : ∀ b : Below, ∃ n, EndsWithin R n b.1 := by
    intro b
    induction b using hwf.induction with
    | _ b ih =>
      choose bound hbound using ih
      -- the bound of all that follow
      have : Finite { c : Below // After c b } := Subtype.finite
      obtain ⟨N, hN⟩ := Finite.exists_le fun c : { c : Below // After c b } => bound c.1 c.2
      refine ⟨N + 1, fun c hbc => ?_⟩
      let c' : Below := ⟨c, b.2.tail hbc⟩
      have hc : After c' b := .single hbc
      exact (hbound c' hc).mono (hN ⟨c', hc⟩)
  exact hall ⟨a, .refl⟩

/-- On a finite type the paths from `a` have a bound exactly when no cycle is reached. -/
theorem endsWithin_iff_no_cycle [Finite α] :
    (∃ n, EndsWithin R n a) ↔
      ¬ ∃ b, Relation.ReflTransGen R a b ∧ Relation.TransGen R b b := by
  constructor
  · rintro ⟨n, h⟩ ⟨b, hab, hcycle⟩
    exact (h.trans hab).not_transGen hcycle
  · intro h
    exact exists_endsWithin fun b hab hcycle => h ⟨b, hab, hcycle⟩

/-- It is enough that what is reached is finite. -/
theorem endsWithin_iff_no_cycle_of_finite (hfin : Set.Finite {b | Relation.ReflTransGen R a b}) :
    (∃ n, EndsWithin R n a) ↔
      ¬ ∃ b, Relation.ReflTransGen R a b ∧ Relation.TransGen R b b := by
  constructor
  · rintro ⟨n, h⟩ ⟨b, hab, hcycle⟩
    exact (h.trans hab).not_transGen hcycle
  · intro h
    let Below := { b // Relation.ReflTransGen R a b }
    have : Finite Below := hfin
    let Within : Below → Below → Prop := fun b c => R b.1 c.1
    have hends : ∀ (n : Nat) (b : Below), EndsWithin Within n b → EndsWithin R n b.1 := by
      intro n
      induction n with
      | zero => exact fun _ hb => hb
      | succ n ih => exact fun b hb c hbc => ih ⟨c, b.2.tail hbc⟩ (hb ⟨c, b.2.tail hbc⟩ hbc)
    obtain ⟨n, hn⟩ := exists_endsWithin (R := Within) (a := ⟨a, .refl⟩) fun b _ hcycle =>
      h ⟨b.1, b.2, hcycle.lift Subtype.val fun _ _ hcd => hcd⟩
    exact ⟨n, hends n _ hn⟩

end Rubyk.Lib
