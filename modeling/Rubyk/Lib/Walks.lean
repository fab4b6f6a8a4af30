/-
  `Lib.Walks`: the walks of a graph, and how to list them.

  From `a` lead the edges `next a`, and the edge `b` leads to `target b`.  Two edges may
  lead to the same place, so a walk is a list of edges.  `walks n a` lists the walks
  with fewer than `n` edges, each before its continuations: it is the order in which a
  function that calls itself along every edge visits them.

  Nothing here is about a particular program.
-/
import Mathlib.Data.List.Nodup
import Rubyk.Lib.Descent

set_option autoImplicit false

namespace Rubyk.Lib

variable {α β : Type*} {next : α → List β} {target : β → α} {a b : α} {l : List β} {n m : Nat}

/-- The edges of `l` follow each other, from `a` on. -/
def IsWalk (next : α → List β) (target : β → α) (a : α) : List β → Prop
  | [] => True
  | b :: l => b ∈ next a ∧ IsWalk next target (target b) l

/-- The walks with fewer than `n` edges. -/
def walks (next : α → List β) (target : β → α) : Nat → α → List (List β)
  | 0, _ => []
  | n + 1, a => [] :: (next a).flatMap fun b => (walks next target n (target b)).map (b :: ·)

/-- One edge leads from `a` to `b`. -/
def Leads (next : α → List β) (target : β → α) (a b : α) : Prop := ∃ e ∈ next a, target e = b

theorem mem_walks : l ∈ walks next target n a ↔ IsWalk next target a l ∧ l.length < n := by
  induction n generalizing a l with
  | zero => simp [walks]
  | succ n ih =>
    cases l with
    | nil => simp [walks, IsWalk]
    | cons e l =>
      simp only [walks, List.mem_cons, reduceCtorEq, false_or, List.mem_flatMap, List.mem_map,
        List.cons.injEq, IsWalk, List.length_cons, Nat.succ_lt_succ_iff]
      constructor
      · rintro ⟨e, he, l, hl, rfl, rfl⟩
        exact ⟨⟨he, (ih.mp hl).1⟩, (ih.mp hl).2⟩
      · rintro ⟨⟨he, hl⟩, hlt⟩
        exact ⟨e, he, l, ih.mpr ⟨hl, hlt⟩, rfl, rfl⟩

/-- The first of the walks has no edge, and the others have one. -/
theorem map_getLast?_walks (e : β) (hn : 0 < n) (a : α) :
    ((walks next target n a).map (e :: ·)).map List.getLast? =
      some e :: (walks next target n a).tail.map List.getLast? := by
  obtain ⟨n, rfl⟩ : ∃ k, n = k + 1 := ⟨n - 1, by omega⟩
  simp only [walks, List.map_cons, List.tail_cons, List.map_map, List.getLast?_singleton,
    List.cons.injEq, true_and]
  refine List.map_congr_left fun l hl => ?_
  obtain ⟨f, -, hl⟩ := List.mem_flatMap.mp hl
  obtain ⟨k, -, rfl⟩ := List.mem_map.mp hl
  simp [List.getLast?_cons]

/-- No walk is listed twice. -/
theorem nodup_walks (hnext : ∀ a, (next a).Nodup) (n : Nat) (a : α) :
    (walks next target n a).Nodup := by
  induction n generalizing a with
  | zero => exact List.nodup_nil
  | succ n ih =>
    refine List.nodup_cons.mpr ⟨by simp, List.nodup_flatMap.mpr ⟨fun e _ => ?_, ?_⟩⟩
    · exact (ih (target e)).map fun _ _ heq => (List.cons.inj heq).2
    · refine (hnext a).imp fun {e f} hne => ?_
      -- the first edges differ
      intro l he hf
      obtain ⟨_, _, rfl⟩ := List.mem_map.mp he
      obtain ⟨_, _, heq⟩ := List.mem_map.mp hf
      exact hne (List.cons.inj heq).1.symm

/-- Where every walk is short, `walks` has them all. -/
theorem endsWithin_iff_walks :
    EndsWithin (Leads next target) n a ↔ ∀ l, IsWalk next target a l → l.length < n := by
  induction n generalizing a with
  | zero => exact ⟨False.elim, fun h => absurd (h [] trivial) (Nat.not_lt_zero _)⟩
  | succ n ih =>
    constructor
    · intro h l hl
      cases l with
      | nil => exact Nat.succ_pos n
      | cons e l => exact Nat.succ_lt_succ (ih.mp (h _ ⟨e, hl.1, rfl⟩) l hl.2)
    · rintro h _ ⟨e, he, rfl⟩
      exact ih.mpr fun l hl => Nat.lt_of_succ_lt_succ (h (e :: l) ⟨he, hl⟩)

theorem mem_walks_of_endsWithin (h : EndsWithin (Leads next target) n a) :
    l ∈ walks next target n a ↔ IsWalk next target a l :=
  mem_walks.trans (and_iff_left_of_imp (endsWithin_iff_walks.mp h l))

end Rubyk.Lib
