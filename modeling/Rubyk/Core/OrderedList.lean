/-
  Core/OrderedList.lean --- `OrderedList<T*>` of `src/core/ordered_list.h`.

  The C++ class is a singly linked list of containers behind a sentinel
  (`linked_list_`).  Here the list of the containers' `obj` pointers is the whole
  state: an iterator into the list is the suffix of containers it still sees.
  `α` is the type of the pointers, so equality on `α` is equality of addresses,
  and `ge a b` is `*a >= *b`, read through the pointers at the time of the call.
-/
import Mathlib.Data.List.Induction
import Mathlib.Data.List.Perm.Basic
import Mathlib.Data.List.Nodup
import Mathlib.Order.Lattice

set_option autoImplicit false

namespace Rubyk.OrderedList

variable {α : Type*}

/-- The second loop of `push_container`: walk past every element the object is
`>=` to, then link the container in. -/
def insertContainer (ge : α → α → Bool) (object : α) : List α → List α
  | [] => [object]
  | obj :: rest =>
      if ge object obj then obj :: insertContainer ge object rest
      else object :: obj :: rest

/-- `get`: the smallest element, if there is one. -/
def get (l : List α) : Option α := l.head?

/-- `pop`: unlink the head, whatever it is. -/
def pop (l : List α) : List α := l.tail

/-- `begin`: the containers an iterator set to the head sees. -/
def begin (l : List α) : List α := l

section Pointers

variable [DecidableEq α]

/-- `push_container`: nothing happens when the pointer is in the list already. -/
def pushContainer (ge : α → α → Bool) (object : α) (l : List α) : List α :=
  if object ∈ l then l else insertContainer ge object l

/-- `push`. -/
def push (ge : α → α → Bool) (object : α) (l : List α) : List α :=
  pushContainer ge object l

/-- `remove`: the returned iterator and the list that is left.  `some rest` is
the container that followed the removed one; `none` is the sentinel, which the
source returns when the object is not found. -/
def remove (object : α) : List α → Option (List α) × List α
  | [] => (none, [])
  | obj :: rest =>
      if object = obj then (some rest, rest)
      else ((remove object rest).1, obj :: (remove object rest).2)

/-- `sort`: push every container, in order, onto a fresh list. -/
def sort (ge : α → α → Bool) (l : List α) : List α :=
  l.foldl (fun acc current => pushContainer ge current acc) []

end Pointers

/-! ## The insertion loop -/

section Insert

variable {ge : α → α → Bool} {x : α} {l : List α}

@[simp] theorem insertContainer_nil : insertContainer ge x [] = [x] := rfl

theorem insertContainer_perm (ge : α → α → Bool) (x : α) (l : List α) :
    (insertContainer ge x l).Perm (x :: l) := by
  induction l with
  | nil => exact .refl _
  | cons y ys ih =>
    simp only [insertContainer]
    split
    · exact (ih.cons y).trans (List.Perm.swap x y ys)
    · exact .refl _

@[simp] theorem mem_insertContainer {y : α} :
    y ∈ insertContainer ge x l ↔ y = x ∨ y ∈ l := by
  rw [(insertContainer_perm ge x l).mem_iff, List.mem_cons]

/-- What was in the list keeps its order. -/
theorem sublist_insertContainer (ge : α → α → Bool) (x : α) (l : List α) :
    l.Sublist (insertContainer ge x l) := by
  induction l with
  | nil => exact List.nil_sublist _
  | cons y ys ih =>
    simp only [insertContainer]
    split
    · exact ih.cons_cons y
    · exact List.sublist_cons_self x (y :: ys)

/-- Elements the new one is `>=` to stay in front of it. -/
theorem insertContainer_append {front : List α} (h : ∀ y ∈ front, ge x y = true) :
    insertContainer ge x (front ++ l) = front ++ insertContainer ge x l := by
  induction front with
  | nil => rfl
  | cons y ys ih =>
    have hy : ge x y = true := h y List.mem_cons_self
    have hys : ∀ z ∈ ys, ge x z = true := fun z hz => h z (List.mem_cons_of_mem y hz)
    simp [insertContainer, hy, ih hys]

/-- Insertion keeps a list pairwise ordered by `R`, when `ge` decides on which
side of an element the new one may stand. -/
theorem insertContainer_pairwise {R : α → α → Prop}
    (hafter : ∀ y ∈ l, ge x y = true → R y x)
    (hbefore : ∀ y ∈ l, ge x y = false → R x y ∧ ∀ z ∈ l, R y z → R x z)
    (hl : l.Pairwise R) : (insertContainer ge x l).Pairwise R := by
  induction l with
  | nil => simp
  | cons y ys ih =>
    obtain ⟨hy, hys⟩ := List.pairwise_cons.mp hl
    simp only [insertContainer]
    split
    · rename_i hge
      have htail : (insertContainer ge x ys).Pairwise R := by
        refine ih (fun z hz => hafter z (List.mem_cons_of_mem y hz)) ?_ hys
        intro z hz hfalse
        obtain ⟨hxz, htrans⟩ := hbefore z (List.mem_cons_of_mem y hz) hfalse
        exact ⟨hxz, fun w hw => htrans w (List.mem_cons_of_mem y hw)⟩
      refine List.pairwise_cons.mpr ⟨fun z hz => ?_, htail⟩
      rcases mem_insertContainer.mp hz with rfl | hz
      · exact hafter y List.mem_cons_self hge
      · exact hy z hz
    · rename_i hge
      obtain ⟨hxy, htrans⟩ := hbefore y List.mem_cons_self (by simpa using hge)
      refine List.pairwise_cons.mpr ⟨fun z hz => ?_, hl⟩
      rcases List.mem_cons.mp hz with rfl | hz
      · exact hxy
      · exact htrans z (List.mem_cons_of_mem y hz) (hy z hz)

/-- An element that is skipped changes nothing of what is kept. -/
theorem insertContainer_filter_of_neg {p : α → Bool} (h : p x = false) (l : List α) :
    (insertContainer ge x l).filter p = l.filter p := by
  induction l with
  | nil => simp [insertContainer, h]
  | cons y ys ih =>
    simp only [insertContainer]
    split
    · simp only [List.filter_cons, ih]
    · simp [List.filter_cons, h]

/-- In an ascending list the loop stops in front of the first element that is greater, and
all that follow are greater too. -/
theorem insertContainer_split (htrans : ∀ a b c, ge a b = true → ge b c = true → ge a c = true)
    (x : α) (hl : l.Pairwise fun a b => ge b a = true) :
    ∃ front back, l = front ++ back ∧ insertContainer ge x l = front ++ x :: back ∧
      (∀ y ∈ front, ge x y = true) ∧ ∀ y ∈ back, ge x y = false := by
  induction l with
  | nil => exact ⟨[], [], rfl, rfl, by simp, by simp⟩
  | cons y ys ih =>
    obtain ⟨hy, hys⟩ := List.pairwise_cons.mp hl
    cases hge : ge x y with
    | true =>
      obtain ⟨front, back, heq, hins, hfront, hback⟩ := ih hys
      refine ⟨y :: front, back, by rw [heq]; rfl, ?_, fun z hz => ?_, hback⟩
      · simp [insertContainer, hge, hins]
      · rcases List.mem_cons.mp hz with rfl | hz
        · exact hge
        · exact hfront z hz
    | false =>
      refine ⟨[], y :: ys, rfl, by simp [insertContainer, hge], by simp, fun z hz => ?_⟩
      rcases List.mem_cons.mp hz with rfl | hz
      · exact hge
      · by_contra hxz
        have hxy := htrans x z y (by simpa using hxz) (hy z hz)
        simp [hge] at hxy

/-- A new element goes behind all elements that it is `>=` to, in each class of elements that
are `>=` to each other. -/
theorem insertContainer_filter_class {p : α → Bool}
    (htrans : ∀ a b c, ge a b = true → ge b c = true → ge a c = true)
    (hp : ∀ a b, p a = true → p b = true → ge a b = true)
    (hl : l.Pairwise fun a b => ge b a = true) :
    (insertContainer ge x l).filter p = l.filter p ++ if p x then [x] else [] := by
  cases hx : p x with
  | false => simpa using insertContainer_filter_of_neg hx l
  | true =>
    obtain ⟨front, back, rfl, hins, -, hback⟩ := insertContainer_split htrans x hl
    have hnone : back.filter p = [] := by
      rw [List.filter_eq_nil_iff]
      intro y hy hpy
      have hge := hp x y hx hpy
      simp [hback y hy] at hge
    rw [hins, List.filter_append, List.filter_append, List.filter_cons, hnone]
    simp [hx]

end Insert

/-! ## `push`, `remove` and `sort` -/

section Pointers

variable [DecidableEq α] {ge : α → α → Bool} {x : α} {l : List α}

theorem push_of_mem (h : x ∈ l) : push ge x l = l := by
  simp [push, pushContainer, h]

theorem push_of_not_mem (h : x ∉ l) : push ge x l = insertContainer ge x l := by
  simp [push, pushContainer, h]

/-- Removing the new element undoes its insertion. -/
theorem insertContainer_erase (h : x ∉ l) : (insertContainer ge x l).erase x = l := by
  induction l with
  | nil => simp
  | cons y ys ih =>
    obtain ⟨hxy, hys⟩ := not_or.mp fun hmem => h (List.mem_cons.mpr hmem)
    simp only [insertContainer]
    split
    · rw [List.erase_cons_tail (by simpa using Ne.symm hxy), ih hys]
    · rw [List.erase_cons_head]

@[simp] theorem mem_push {y : α} : y ∈ push ge x l ↔ y = x ∨ y ∈ l := by
  by_cases h : x ∈ l
  · rw [push_of_mem h]
    constructor
    · exact Or.inr
    · rintro (rfl | hy)
      · exact h
      · exact hy
  · rw [push_of_not_mem h, mem_insertContainer]

theorem push_nodup (h : l.Nodup) : (push ge x l).Nodup := by
  by_cases hx : x ∈ l
  · rwa [push_of_mem hx]
  · rw [push_of_not_mem hx]
    exact (insertContainer_perm ge x l).nodup_iff.mpr (List.nodup_cons.mpr ⟨hx, h⟩)

/-- The list `remove` leaves is the list without the first such pointer. -/
@[simp] theorem remove_snd (x : α) (l : List α) : (remove x l).2 = l.erase x := by
  induction l with
  | nil => rfl
  | cons y ys ih =>
    by_cases h : x = y
    · simp [remove, h]
    · have hne : ¬ (y == x) = true := by simpa using fun he : y = x => h he.symm
      simp [remove, h, ih, List.erase_cons_tail hne]

/-- `remove` returns the container after the removed one. -/
theorem remove_append_cons {front rest : List α} (h : x ∉ front) :
    remove x (front ++ x :: rest) = (some rest, front ++ rest) := by
  induction front with
  | nil => simp [remove]
  | cons y ys ih =>
    simp only [List.mem_cons, not_or] at h
    simp [remove, h.1, ih h.2]

/-- `remove` returns the sentinel exactly when the pointer is not in the list. -/
theorem remove_fst_eq_none : (remove x l).1 = none ↔ x ∉ l := by
  induction l with
  | nil => simp [remove]
  | cons y ys ih =>
    by_cases h : x = y
    · simp [remove, h]
    · simp [remove, h, ih]

/-- What the iterator that `remove` returns still sees was in the list. -/
theorem mem_of_remove_fst {it : List α} (h : (remove x l).1 = some it) {y : α} (hy : y ∈ it) :
    y ∈ l := by
  induction l with
  | nil => simp [remove] at h
  | cons z zs ih =>
    by_cases hx : x = z
    · obtain rfl : zs = it := by simpa [remove, hx] using h
      exact List.mem_cons_of_mem z hy
    · exact List.mem_cons_of_mem z (ih (by simpa [remove, hx] using h))

theorem sort_foldl_nodup {acc : List α} (hacc : acc.Nodup) :
    (l.foldl (fun acc current => pushContainer ge current acc) acc).Nodup := by
  induction l generalizing acc with
  | nil => exact hacc
  | cons y ys ih => exact ih (show (push ge y acc).Nodup from push_nodup hacc)

theorem sort_nodup (ge : α → α → Bool) (l : List α) : (sort ge l).Nodup :=
  sort_foldl_nodup List.nodup_nil

theorem mem_sort_foldl {acc : List α} {y : α} :
    y ∈ l.foldl (fun acc current => pushContainer ge current acc) acc ↔
      y ∈ l ∨ y ∈ acc := by
  induction l generalizing acc with
  | nil => simp
  | cons z zs ih =>
    rw [List.foldl_cons, ih, List.mem_cons]
    change y ∈ zs ∨ y ∈ push ge z acc ↔ _
    rw [mem_push]
    tauto

theorem sort_foldl_pairwise {R : α → α → Prop} {acc : List α}
    (hafter : ∀ x ∈ l ++ acc, ∀ y ∈ l ++ acc, ge x y = true → R y x)
    (hbefore : ∀ x ∈ l ++ acc, ∀ y ∈ l ++ acc, ge x y = false → R x y)
    (htrans : ∀ x ∈ l ++ acc, ∀ y ∈ l ++ acc, ∀ z ∈ l ++ acc, R x y → R y z → R x z)
    (hacc : acc.Pairwise R) :
    (l.foldl (fun acc current => pushContainer ge current acc) acc).Pairwise R := by
  induction l generalizing acc with
  | nil => exact hacc
  | cons x xs ih =>
    have hsub : ∀ y ∈ xs ++ push ge x acc, y ∈ x :: xs ++ acc := by
      intro y hy
      simp only [List.mem_append, mem_push, List.cons_append, List.mem_cons] at hy ⊢
      tauto
    have hx : x ∈ x :: xs ++ acc := by simp
    have hin : ∀ y ∈ acc, y ∈ x :: xs ++ acc := fun y hy => List.mem_append_right _ hy
    have hpush : (push ge x acc).Pairwise R := by
      by_cases hmem : x ∈ acc
      · rwa [push_of_mem hmem]
      · rw [push_of_not_mem hmem]
        refine insertContainer_pairwise (fun y hy => hafter x hx y (hin y hy)) ?_ hacc
        intro y hy hge
        have hxy : R x y := hbefore x hx y (hin y hy) hge
        exact ⟨hxy, fun z hz => htrans x hx y (hin y hy) z (hin z hz) hxy⟩
    refine ih (fun y hy z hz => hafter y (hsub y hy) z (hsub z hz))
      (fun y hy z hz => hbefore y (hsub y hy) z (hsub z hz))
      (fun y hy z hz w hw => htrans y (hsub y hy) z (hsub z hz) w (hsub w hw)) hpush

/-- `sort` orders the list by any relation the comparison decides. -/
theorem sort_pairwise {R : α → α → Prop}
    (hafter : ∀ x ∈ l, ∀ y ∈ l, ge x y = true → R y x)
    (hbefore : ∀ x ∈ l, ∀ y ∈ l, ge x y = false → R x y)
    (htrans : ∀ x ∈ l, ∀ y ∈ l, ∀ z ∈ l, R x y → R y z → R x z) :
    (sort ge l).Pairwise R :=
  sort_foldl_pairwise (by simpa using hafter) (by simpa using hbefore)
    (by simpa using htrans) List.Pairwise.nil

@[simp] theorem mem_sort {y : α} : y ∈ sort ge l ↔ y ∈ l := by
  simp [sort, mem_sort_foldl]

theorem sort_perm (ge : α → α → Bool) (h : l.Nodup) : (sort ge l).Perm l :=
  (List.perm_ext_iff_of_nodup (sort_nodup ge l) h).mpr fun _ => mem_sort

theorem sort_foldl_filter {p : α → Bool} {acc : List α}
    (htotal : ∀ a b, ge a b = false → ge b a = true)
    (htrans : ∀ a b c, ge a b = true → ge b c = true → ge a c = true)
    (hp : ∀ a b, p a = true → p b = true → ge a b = true)
    (hacc : acc.Pairwise fun a b => ge b a = true) (hnodup : (acc ++ l).Nodup) :
    (l.foldl (fun acc current => pushContainer ge current acc) acc).filter p =
      acc.filter p ++ l.filter p := by
  induction l generalizing acc with
  | nil => simp
  | cons x xs ih =>
    have hx : x ∉ acc := fun hmem =>
      (List.nodup_append.mp hnodup).2.2 x hmem x List.mem_cons_self rfl
    have hpush : pushContainer ge x acc = insertContainer ge x acc := push_of_not_mem hx
    have hsorted : (insertContainer ge x acc).Pairwise fun a b => ge b a = true := by
      refine insertContainer_pairwise (fun _ _ hge => hge) (fun y _ hge => ?_) hacc
      have hyx := htotal x y hge
      exact ⟨hyx, fun z _ hyz => htrans z y x hyz hyx⟩
    have hrest : (insertContainer ge x acc ++ xs).Nodup := by
      have hperm : (insertContainer ge x acc ++ xs).Perm (acc ++ x :: xs) :=
        ((insertContainer_perm ge x acc).append_right xs).trans List.perm_middle.symm
      exact hperm.nodup_iff.mpr hnodup
    rw [List.foldl_cons, hpush, ih hsorted hrest,
      insertContainer_filter_class htrans hp hacc, List.append_assoc]
    congr 1
    cases hpx : p x <;> simp [hpx]

/-- `sort` leaves the elements of a class in their order. -/
theorem sort_filter {p : α → Bool} (htotal : ∀ a b, ge a b = false → ge b a = true)
    (htrans : ∀ a b c, ge a b = true → ge b c = true → ge a c = true)
    (hp : ∀ a b, p a = true → p b = true → ge a b = true) (h : l.Nodup) :
    (sort ge l).filter p = l.filter p := by
  have hnodup : ([] ++ l).Nodup := h
  have hfold := sort_foldl_filter htotal htrans hp List.Pairwise.nil hnodup
  rwa [List.filter_nil, List.nil_append] at hfold

end Pointers

/-! ## Elements with a fixed key

When `*a >= *b` compares a key that stays with the element, pushing elements one
after the other is a stable insertion sort. -/

section Keyed

variable {κ : Type*} [LinearOrder κ] (key : α → κ)

/-- The comparison of two elements by their keys. -/
def keyGe (a b : α) : Bool := decide (key b ≤ key a)

/-- Ascending keys. -/
def Ascending (l : List α) : Prop := l.Pairwise fun a b => key a ≤ key b

/-- The elements in the order insertion puts them. -/
def insertAll (l : List α) : List α :=
  l.foldl (fun acc x => insertContainer (keyGe key) x acc) []

variable {key}

theorem insertContainer_ascending {x : α} {l : List α} (hl : Ascending key l) :
    Ascending key (insertContainer (keyGe key) x l) := by
  refine insertContainer_pairwise (fun y _ hge => of_decide_eq_true hge) ?_ hl
  intro y _ hge
  have hlt : key x < key y := not_le.mp (of_decide_eq_false hge)
  exact ⟨hlt.le, fun z _ hyz => hlt.le.trans hyz⟩

/-- A new element goes behind all elements with its key, and nothing else of the
order among equal keys changes. -/
theorem insertContainer_filter (x : α) {l : List α} (hl : Ascending key l) (k : κ) :
    (insertContainer (keyGe key) x l).filter (fun a => decide (key a = k)) =
      l.filter (fun a => decide (key a = k)) ++ if key x = k then [x] else [] := by
  have htrans : ∀ a b c, keyGe key a b = true → keyGe key b c = true → keyGe key a c = true := by
    simp only [keyGe, decide_eq_true_eq]
    exact fun a b c hab hbc => hbc.trans hab
  have hclass : ∀ a b, decide (key a = k) = true → decide (key b = k) = true →
      keyGe key a b = true := by
    simp only [keyGe, decide_eq_true_eq]
    rintro a b rfl hb
    exact hb.le
  have hle : l.Pairwise fun a b => keyGe key b a = true := by
    simpa only [keyGe, decide_eq_true_eq, Ascending] using hl
  rw [insertContainer_filter_class htrans hclass hle]
  simp

@[simp] theorem insertAll_append_singleton (l : List α) (x : α) :
    insertAll key (l ++ [x]) = insertContainer (keyGe key) x (insertAll key l) := by
  simp [insertAll]

theorem insertAll_perm (key : α → κ) (l : List α) : (insertAll key l).Perm l := by
  induction l using List.reverseRecOn with
  | nil => exact .refl _
  | append_singleton l x ih =>
    rw [insertAll_append_singleton]
    exact (insertContainer_perm _ x _).trans
      ((ih.cons x).trans (List.perm_append_singleton x l).symm)

theorem insertAll_ascending (l : List α) : Ascending key (insertAll key l) := by
  induction l using List.reverseRecOn with
  | nil => exact List.Pairwise.nil
  | append_singleton l x ih =>
    rw [insertAll_append_singleton]
    exact insertContainer_ascending ih

theorem insertAll_filter (key : α → κ) (l : List α) (k : κ) :
    (insertAll key l).filter (fun a => decide (key a = k)) =
      l.filter (fun a => decide (key a = k)) := by
  induction l using List.reverseRecOn with
  | nil => rfl
  | append_singleton l x ih =>
    rw [insertAll_append_singleton, insertContainer_filter x (insertAll_ascending l) k, ih,
      List.filter_append]
    by_cases h : key x = k <;> simp [h]

end Keyed

end Rubyk.OrderedList
