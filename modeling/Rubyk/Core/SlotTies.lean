/-
  Core/SlotTies.lean --- slots of different nodes with the same trigger position.

  `Slot::operator>=` is false both ways for such slots, so `push` puts the later one in
  front, and it does not look behind it: a slot that comes after a tie is not compared with
  the slots of its own node that came before.  The order within a node is lost exactly when
  a slot with a smaller id is pushed after a tie that was pushed after a greater one
  (`pushed_in_order_iff`).
-/
import Mathlib.Data.List.TakeWhile
import Rubyk.Core.NodeSlots

set_option autoImplicit false

/-! ## Pairs in a list -/

namespace Rubyk.OrderedList

open List (Sublist)

variable {α : Type*} {ge : α → α → Bool} {x y z : α} {l : List α}

theorem insertContainer_eq (ge : α → α → Bool) (x : α) (l : List α) :
    insertContainer ge x l = l.takeWhile (ge x) ++ x :: l.dropWhile (ge x) := by
  induction l with
  | nil => rfl
  | cons y ys ih =>
    rw [insertContainer]
    cases hge : ge x y with
    | true =>
      rw [if_pos rfl, ih, List.takeWhile_cons_of_pos hge, List.dropWhile_cons_of_pos hge,
        List.cons_append]
    | false =>
      have hneg : ¬ ge x y = true := by rw [hge]; decide
      rw [if_neg (by decide), List.takeWhile_cons_of_neg hneg, List.dropWhile_cons_of_neg hneg,
        List.nil_append]

/-- The new element stands in front of those that it is not `>=` to. -/
theorem pair_sublist_insertContainer (hy : y ∈ l) (hge : ge x y = false) :
    [x, y].Sublist (insertContainer ge x l) := by
  have hback : y ∈ l.dropWhile (ge x) := by
    rw [← List.takeWhile_append_dropWhile (p := ge x) (l := l), List.mem_append] at hy
    refine hy.resolve_left fun hfront => ?_
    rw [List.mem_takeWhile_imp hfront] at hge
    cases hge
  rw [insertContainer_eq]
  exact ((List.singleton_sublist.mpr hback).cons_cons x).trans (List.sublist_append_right _ _)

/-- Two elements stand in one order or the other. -/
theorem pair_sublist_or (hy : y ∈ l) (hz : z ∈ l) (hne : y ≠ z) :
    [y, z].Sublist l ∨ [z, y].Sublist l := by
  induction l with
  | nil => cases hy
  | cons a l ih =>
    rcases List.mem_cons.mp hy with rfl | hyl
    · rcases List.mem_cons.mp hz with rfl | hzl
      · exact absurd rfl hne
      · exact Or.inl (List.Sublist.cons_cons y (List.singleton_sublist.mpr hzl))
    · rcases List.mem_cons.mp hz with rfl | hzl
      · exact Or.inr (List.Sublist.cons_cons z (List.singleton_sublist.mpr hyl))
      · exact (ih hyl hzl).imp (List.Sublist.cons a) (List.Sublist.cons a)

theorem not_pair_sublist (hl : l.Nodup) (h : [y, z].Sublist l) : ¬ [z, y].Sublist l := by
  induction l with
  | nil => cases h
  | cons a l ih =>
    obtain ⟨ha, hl⟩ := List.nodup_cons.mp hl
    intro h'
    have hin : ∀ {b c : α}, [b, c].Sublist (a :: l) → c ∈ l := by
      intro b c hbc
      cases hbc with
      | cons _ hrest => exact hrest.subset (List.mem_cons_of_mem b (List.mem_singleton_self c))
      | cons_cons _ hrest => exact hrest.subset (List.mem_singleton_self c)
    cases h with
    | cons_cons _ hrest => exact ha (hin h')
    | cons _ hrest =>
      cases h' with
      | cons_cons _ hrest' => exact ha (hin (List.Sublist.cons _ hrest))
      | cons _ hrest' => exact ih hl hrest hrest'

theorem sublist_concat {xs : List α} (h : xs.Sublist (l ++ [x])) :
    xs.Sublist l ∨ ∃ ys, xs = ys ++ [x] ∧ ys.Sublist l := by
  obtain ⟨ys, zs, rfl, hys, hzs⟩ := List.sublist_append_iff.mp h
  rcases List.sublist_singleton.mp hzs with rfl | rfl
  · rw [List.append_nil]
    exact Or.inl hys
  · exact Or.inr ⟨ys, rfl, hys⟩

theorem nodup_concat (h : (l ++ [x]).Nodup) : x ∉ l ∧ l.Nodup :=
  List.nodup_cons.mp (List.nodup_append_comm.mp h)

end Rubyk.OrderedList

namespace Rubyk.SlotGraph

open OrderedList

variable {T : Type} {g : SlotGraph T} {s t u : SlotId} {l : List SlotId}

/-- The node of a live slot. -/
def nodeOf (g : SlotGraph T) (s : SlotId) : NodeId :=
  match g.slots s with
  | some slot => slot.node
  | none => 0

/-- The trigger position of its node. -/
def positionOf (g : SlotGraph T) (s : SlotId) : ℚ := g.triggerPosition (g.nodeOf s)

/-- `push` of one slot after the other. -/
def pushAll (g : SlotGraph T) (l : List SlotId) : List SlotId :=
  l.foldl (fun slots s => push g.ge s slots) []

/-- A tie between `s` and a slot of the same node with a smaller id. -/
def TieBetween (g : SlotGraph T) (s t u : SlotId) : Prop :=
  g.nodeOf u = g.nodeOf s ∧ g.nodeOf t ≠ g.nodeOf s ∧ g.positionOf t = g.positionOf s ∧
    g.idOf u < g.idOf s

instance (g : SlotGraph T) (s t u : SlotId) : Decidable (TieBetween g s t u) :=
  inferInstanceAs (Decidable (_ ∧ _ ∧ _ ∧ _))

theorem ge_of_live (hs : (g.slots s).isSome) (ht : (g.slots t).isSome) :
    g.ge s t = if g.nodeOf s = g.nodeOf t then decide (g.idOf s < g.idOf t)
      else decide (g.positionOf s < g.positionOf t) := by
  obtain ⟨slot, hslot⟩ := Option.isSome_iff_exists.mp hs
  obtain ⟨other, hother⟩ := Option.isSome_iff_exists.mp ht
  simp only [ge, positionOf, nodeOf, idOf, hslot, hother]

theorem before_iff (hs : (g.slots s).isSome) (ht : (g.slots t).isSome) :
    Before g s t ↔ g.positionOf t ≤ g.positionOf s ∧
      (g.nodeOf t = g.nodeOf s → g.idOf t ≤ g.idOf s) := by
  obtain ⟨slot, hslot⟩ := Option.isSome_iff_exists.mp hs
  obtain ⟨other, hother⟩ := Option.isSome_iff_exists.mp ht
  simp only [Before, positionOf, nodeOf, idOf, hslot, hother, Option.some.injEq]
  constructor
  · intro h
    exact h slot other rfl rfl
  · rintro h _ _ rfl rfl
    exact h

theorem pushAll_concat (hs : s ∉ l) :
    pushAll g (l ++ [s]) = insertContainer g.ge s (pushAll g l) := by
  have hmem : s ∉ pushAll g l := fun h => hs (mem_sort.mp h)
  rw [pushAll, List.foldl_append]
  exact push_of_not_mem hmem

/-- Of two slots with a tie, the later one stands in front. -/
theorem tie_reversed (hnodup : l.Nodup) (hlive : ∀ s ∈ l, (g.slots s).isSome)
    (hnode : g.nodeOf t ≠ g.nodeOf s) (hposition : g.positionOf t = g.positionOf s)
    (h : [s, t].Sublist l) : [t, s].Sublist (pushAll g l) := by
  induction l using List.reverseRecOn with
  | nil => cases h
  | append_singleton l x ih =>
    obtain ⟨hx, hl⟩ := nodup_concat hnodup
    rw [pushAll_concat hx]
    rcases sublist_concat h with h | ⟨ys, heq, hys⟩
    · exact (ih hl (fun u hu => hlive u (List.mem_append_left _ hu)) h).trans
        (sublist_insertContainer _ _ _)
    · obtain ⟨rfl, ht⟩ := List.append_inj' (show [s] ++ [t] = ys ++ [x] from heq) rfl
      obtain rfl := (List.cons.inj ht).1
      have hsl : s ∈ l := List.singleton_sublist.mp hys
      refine pair_sublist_insertContainer (mem_sort.mpr hsl) ?_
      rw [ge_of_live (hlive t (by simp)) (hlive s (List.mem_append_left _ hsl)), if_neg hnode,
        hposition]
      exact decide_eq_false (lt_irrefl _)

/-- After a tie, a slot stands in front of the slots of its node that came before the tie. -/
theorem tie_overtaken (hnodup : l.Nodup) (hlive : ∀ s ∈ l, (g.slots s).isSome)
    (h : [s, t, u].Sublist l) (htie : TieBetween g s t u) : [u, s].Sublist (pushAll g l) := by
  induction l using List.reverseRecOn with
  | nil => cases h
  | append_singleton l x ih =>
    obtain ⟨hx, hl⟩ := nodup_concat hnodup
    have hlive' : ∀ s ∈ l, (g.slots s).isSome := fun v hv => hlive v (List.mem_append_left _ hv)
    rw [pushAll_concat hx]
    rcases sublist_concat h with h | ⟨ys, heq, hys⟩
    · exact (ih hl hlive' h).trans (sublist_insertContainer _ _ _)
    · obtain ⟨rfl, hu⟩ := List.append_inj' (show [s, t] ++ [u] = ys ++ [x] from heq) rfl
      obtain rfl := (List.cons.inj hu).1
      obtain ⟨hsame, hother, hposition, -⟩ := htie
      have htl : t ∈ l := hys.subset (by simp)
      have hge : g.ge u t = false := by
        have hposition' : g.positionOf u = g.positionOf t := by
          rw [hposition, positionOf, positionOf, hsame]
        rw [ge_of_live (hlive u (by simp)) (hlive' t htl),
          if_neg (by rw [hsame]; exact hother.symm), hposition']
        exact decide_eq_false (lt_irrefl _)
      -- the loop stops at `t`, and `s` comes after it
      have hpair := tie_reversed hl hlive' hother hposition hys
      rw [← List.takeWhile_append_dropWhile (p := g.ge u) (l := pushAll g l)] at hpair
      obtain ⟨front, back, heq', hfront, hback⟩ := List.sublist_append_iff.mp hpair
      cases front with
      | nil =>
        rw [List.nil_append] at heq'
        subst heq'
        have hs := (List.singleton_sublist.mp ((List.sublist_cons_self t [s]).trans hback))
        rw [insertContainer_eq]
        exact ((List.singleton_sublist.mpr hs).cons_cons u).trans (List.sublist_append_right _ _)
      | cons v front =>
        obtain rfl : t = v := (List.cons.inj heq').1
        have htrue := List.mem_takeWhile_imp (hfront.subset List.mem_cons_self)
        rw [hge] at htrue
        cases htrue

/-- One more slot keeps the order, unless it comes after a tie. -/
theorem insertContainer_ordered (hnodup : (l ++ [u]).Nodup)
    (hlive : ∀ s ∈ l ++ [u], (g.slots s).isSome)
    (htie : ∀ s t, [s, t, u].Sublist (l ++ [u]) → ¬ TieBetween g s t u)
    (hordered : (pushAll g l).Pairwise (Before g)) :
    (insertContainer g.ge u (pushAll g l)).Pairwise (Before g) := by
  obtain ⟨hu, hl⟩ := nodup_concat hnodup
  have hlive' : ∀ s ∈ pushAll g l, (g.slots s).isSome := fun s hs =>
    hlive s (List.mem_append_left _ (mem_sort.mp hs))
  have hliveu : (g.slots u).isSome := hlive u (by simp)
  have hsplit := List.takeWhile_append_dropWhile (p := g.ge u) (l := pushAll g l)
  have hparts : (pushAll g l).Pairwise (Before g) := hordered
  rw [← hsplit] at hparts
  obtain ⟨hfront, hback, hcross⟩ := List.pairwise_append.mp hparts
  have hafter : ∀ t ∈ (pushAll g l).takeWhile (g.ge u), Before g t u := fun t ht =>
    before_of_ge (List.mem_takeWhile_imp ht)
  have hbefore : ∀ s ∈ (pushAll g l).dropWhile (g.ge u), Before g u s := by
    cases hdrop : (pushAll g l).dropWhile (g.ge u) with
    | nil => nofun
    | cons t rest =>
      have ht : g.ge u t = false := by
        have hhead := List.head_dropWhile_not (g.ge u) (l := pushAll g l) (by rw [hdrop]; nofun)
        simpa [hdrop] using hhead
      have hsub : (t :: rest).Sublist (pushAll g l) := hdrop ▸ List.dropWhile_sublist _
      have htin : t ∈ pushAll g l := hsub.subset List.mem_cons_self
      have hut := (before_iff hliveu (hlive' t htin)).mp (before_of_not_ge ht)
      intro s hs
      rcases List.mem_cons.mp hs with rfl | hs
      · exact before_of_not_ge ht
      · have hsin : s ∈ pushAll g l := hsub.subset (List.mem_cons_of_mem t hs)
        have hpair : [t, s].Sublist (pushAll g l) :=
          ((List.singleton_sublist.mpr hs).cons_cons t).trans hsub
        have hts := (before_iff (hlive' t htin) (hlive' s hsin)).mp
          (List.pairwise_iff_forall_sublist.mp hordered hpair)
        refine (before_iff hliveu (hlive' s hsin)).mpr ⟨le_trans hts.1 hut.1, fun hnode => ?_⟩
        by_contra hlt
        by_cases hother : g.nodeOf t = g.nodeOf u
        · have hle := hts.2 (hnode.trans hother.symm)
          have hle' := hut.2 hother
          omega
        · -- a tie: it was pushed after `s`
          have hsu : g.positionOf s = g.positionOf u := by rw [positionOf, positionOf, hnode]
          have hposition : g.positionOf t = g.positionOf s :=
            le_antisymm (by rw [hsu]; exact hut.1) hts.1
          have hdistinct : g.nodeOf t ≠ g.nodeOf s := by rwa [hnode]
          have hne : s ≠ t := fun heq => hdistinct (by rw [heq])
          rcases pair_sublist_or (mem_sort.mp hsin) (mem_sort.mp htin) hne with hst | hts'
          · exact htie s t (hst.append (List.Sublist.refl [u]))
              ⟨hnode.symm, hdistinct, hposition, by omega⟩
          · have hreversed := tie_reversed hl (fun v hv => hlive v (List.mem_append_left _ hv))
              hdistinct.symm hposition.symm hts'
            exact not_pair_sublist (sort_nodup g.ge l) hpair hreversed
  rw [insertContainer_eq]
  refine List.pairwise_append.mpr ⟨hfront, List.pairwise_cons.mpr ⟨hbefore, hback⟩, ?_⟩
  intro t ht s hs
  rcases List.mem_cons.mp hs with rfl | hs
  · exact hafter t ht
  · exact hcross t ht s hs

/-- Slots that are pushed one after the other are in order exactly when none comes after a tie with
a greater one. -/
theorem pushed_in_order_iff (g : SlotGraph T) (l : List SlotId) (hnodup : l.Nodup)
    (hlive : ∀ s ∈ l, (g.slots s).isSome) :
    (pushAll g l).Pairwise (Before g) ↔
      ∀ s t u, [s, t, u].Sublist l → ¬ TieBetween g s t u := by
  constructor
  · intro hordered s t u h htie
    have hpair := List.pairwise_iff_forall_sublist.mp hordered (tie_overtaken hnodup hlive h htie)
    have hs : s ∈ l := h.subset (by simp)
    have hu : u ∈ l := h.subset (by simp)
    obtain ⟨hsame, -, -, hlt⟩ := htie
    have hle := ((before_iff (hlive u hu) (hlive s hs)).mp hpair).2 hsame.symm
    omega
  · intro htie
    induction l using List.reverseRecOn with
    | nil => exact List.Pairwise.nil
    | append_singleton l u ih =>
      obtain ⟨hu, hl⟩ := nodup_concat hnodup
      rw [pushAll_concat hu]
      refine insertContainer_ordered hnodup hlive (fun s t h => htie s t u h) ?_
      refine ih hl (fun s hs => hlive s (List.mem_append_left _ hs)) fun s t v h => ?_
      exact htie s t v (h.trans (List.sublist_append_left l [u]))

/-- Two inlets of one node and one of another, with the same trigger position. -/
def twoNodes : SlotGraph Unit where
  slots s := if s = 1 then some ⟨.inlet, 1, (), 0, []⟩
    else if s = 2 then some ⟨.inlet, 1, (), 1, []⟩
    else if s = 3 then some ⟨.inlet, 2, (), 0, []⟩ else none
  nodes n := if n = 1 then some ⟨5, [1, 2], []⟩ else if n = 2 then some ⟨5, [3], []⟩ else none
  sIdCounter := 2

/-- First the other node, then the greater id, then the smaller one. -/
theorem pushed_in_order_iff_tie :
    pushAll twoNodes [3, 2, 1] = [2, 1, 3] ∧
      (pushAll twoNodes [3, 2, 1]).Pairwise (Before twoNodes) := by
  refine ⟨by decide, (pushed_in_order_iff twoNodes [3, 2, 1] (by decide) (by decide)).mpr ?_⟩
  intro s t u h
  cases h.eq_of_length_le (Nat.le_refl 3)
  decide

/-- With the other node in between, the smaller id comes first. -/
theorem tie_disturbs_order :
    pushAll twoNodes [2, 3, 1] = [1, 3, 2] ∧
      ¬ (pushAll twoNodes [2, 3, 1]).Pairwise (Before twoNodes) := by
  refine ⟨by decide, fun h => ?_⟩
  have hpair : [1, 2].Sublist (pushAll twoNodes [2, 3, 1]) := by decide
  have hbefore := List.pairwise_iff_forall_sublist.mp h hpair
  exact absurd (((before_iff (by decide) (by decide)).mp hbefore).2 rfl) (by decide)

end Rubyk.SlotGraph
