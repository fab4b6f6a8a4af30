/-
  Core/OrderedListCells.lean --- `OrderedList<T*>` of `src/core/ordered_list.h`, with
  its pointers.

  WHAT IS MODELLED.  `linked_list_` is the address of a sentinel, a container without
  an object, and the elements are the containers behind it.  The functions below do
  to the containers what the code does: loops move an iterator, `push_container`
  links a container in by writing one or two pointers, `sort` moves the containers
  there are behind a new sentinel.  `Core/OrderedList.lean` has the same functions on
  the list of objects; this file proves that they are the same (`push_refines`,
  `remove_refines`, `pop_refines`, `sort_refines`).

  MEMORY.  `new` gets an address from the caller, and `news` counts the calls of
  `new`: more than there are containers, so enough turns for every loop.
-/
import Mathlib.Data.List.TakeWhile
import Rubyk.Core.OrderedList
import Rubyk.Lib.LinkedCells

set_option autoImplicit false

namespace Rubyk.OrderedList

open Lib

variable {α : Type}

/-- An `OrderedList<T*>` and the memory its containers are in. -/
structure Containers (α : Type) where
  /-- the sentinel has no object -/
  memory : Memory (Option α)
  linkedList : Addr
  news : Nat

namespace Containers

/-- `new LinkedList<T*>(object)` at an address. -/
def newContainer (s : Containers α) (a : Addr) (object : Option α) : Containers α :=
  { s with memory := writeCell s.memory a ⟨object, none⟩, news := s.news + 1 }

/-- `OrderedList()`. -/
def init (a : Addr) : Containers α :=
  newContainer { memory := fun _ => none, linkedList := a, news := 0 } a none

/-- What the iterator points to, and the object of the container behind it. -/
def objectBehind (s : Containers α) (iterator : Addr) :
    Except CellFault (Option (Addr × α)) := do
  let it ← readCell s.memory iterator
  match it.next with
  | none => pure none
  | some next =>
      let container ← readCell s.memory next
      match container.obj with
      | some obj => pure (some (next, obj))
      | none => .error .null

/-- `iterator = iterator->next` while there is a container behind the iterator and its object
does not say stop. -/
def advance (s : Containers α) (stop : α → Bool) (iterator : Addr) : Except CellFault Addr :=
  walk s.memory
    (fun obj =>
      match obj with
      | some obj => .ok (stop obj)
      | none => .error .null)
    s.news iterator

section Pointers

variable [DecidableEq α]

/-- `push_container`. -/
def pushContainer (ge : α → α → Bool) (s : Containers α) (container : Addr) (object : α) :
    Except CellFault (Containers α) := do
  -- make sure object is not in the list already
  let iterator ← s.advance (fun obj => decide (object = obj)) s.linkedList
  match ← s.objectBehind iterator with
  | some _ => pure s
  | none =>
      let iterator ← s.advance (fun obj => !ge object obj) s.linkedList
      match ← s.objectBehind iterator with
      | some (next, _) =>
          -- insert between iterator and iterator->next
          let memory ← setNext s.memory container (some next)
          let memory ← setNext memory iterator (some container)
          pure { s with memory := memory }
      | none =>
          -- add to bottom of queue
          let memory ← setNext s.memory iterator (some container)
          pure { s with memory := memory }

/-- `push`; the new container gets the address. -/
def push (ge : α → α → Bool) (s : Containers α) (a : Addr) (object : α) :
    Except CellFault (Containers α) :=
  pushContainer ge (s.newContainer a (some object)) a object

/-- `tmp = iterator->next->next`, `delete iterator->next` and `iterator->next = tmp`. -/
def deleteBehind (s : Containers α) (iterator next : Addr) :
    Except CellFault (Option Addr × Containers α) := do
  let container ← readCell s.memory next
  let memory ← setNext (freeCell s.memory next) iterator container.next
  pure (container.next, { s with memory := memory })

/-- `remove`, with the pointer that it returns: what was behind the removed container, or the
sentinel. -/
def remove (s : Containers α) (object : α) :
    Except CellFault (Option Addr × Containers α) := do
  let iterator ← s.advance (fun obj => decide (object = obj)) s.linkedList
  match ← s.objectBehind iterator with
  | some (next, _) => s.deleteBehind iterator next
  | none => pure (some s.linkedList, s)

/-- `pop`. -/
def pop (s : Containers α) : Except CellFault (Containers α) := do
  match ← s.objectBehind s.linkedList with
  | some (next, _) => do
      let (_, s) ← s.deleteBehind s.linkedList next
      pure s
  | none => pure s

/-- The loop of `sort`, for at most `fuel` containers. -/
def sortFrom (ge : α → α → Bool) : Nat → Option Addr → Containers α →
    Except CellFault (Containers α)
  | _, none, s => .ok s
  | 0, some _, _ => .error .unfinished
  | fuel + 1, some current, s => do
      let container ← readCell s.memory current
      let memory ← setNext s.memory current none
      match container.obj with
      | some object =>
          let s ← pushContainer ge { s with memory := memory } current object
          sortFrom ge fuel container.next s
      | none => .error .null

/-- `sort`; the new sentinel gets the address. -/
def sort (ge : α → α → Bool) (s : Containers α) (a : Addr) :
    Except CellFault (Containers α) := do
  let oldHead := s.linkedList
  let s := { s.newContainer a none with linkedList := a }
  let head ← readCell s.memory oldHead
  let s ← sortFrom ge s.news head.next s
  pure { s with memory := freeCell s.memory oldHead }

end Pointers

/-! ## The list of objects that the containers hold -/

/-- The containers of the elements, as they are in the memory. -/
def elements (cells : List (Addr × α)) : List (Addr × Option α) :=
  cells.map fun p => (p.1, some p.2)

/-- The objects in the list. -/
def objects (cells : List (Addr × α)) : List α := cells.map Prod.snd

/-- The containers behind the sentinel are `cells`, one after the other. -/
structure Holds (s : Containers α) (cells : List (Addr × α)) : Prop where
  row : Cells s.memory none ((s.linkedList, none) :: elements cells)
  turns : cells.length < s.news

/-- The containers of an empty list: the sentinel. -/
theorem init_holds (a : Addr) : (init a : Containers α).Holds [] := by
  refine ⟨⟨?_, trivial⟩, Nat.succ_pos 0⟩
  simp [init, newContainer, writeCell, elements, firstOf]

@[simp] theorem elements_cons (p : Addr × α) (cells : List (Addr × α)) :
    elements (p :: cells) = (p.1, some p.2) :: elements cells := rfl

@[simp] theorem elements_append (front back : List (Addr × α)) :
    elements (front ++ back) = elements front ++ elements back := List.map_append

@[simp] theorem elements_length (cells : List (Addr × α)) :
    (elements cells).length = cells.length := List.length_map _

@[simp] theorem addrs_elements (cells : List (Addr × α)) :
    addrs (elements cells) = addrs cells := by
  simp [addrs, elements]

@[simp] theorem objects_cons (p : Addr × α) (cells : List (Addr × α)) :
    objects (p :: cells) = p.2 :: objects cells := rfl

@[simp] theorem objects_append (front back : List (Addr × α)) :
    objects (front ++ back) = objects front ++ objects back := List.map_append

variable {s : Containers α} {cells front back : List (Addr × α)} {a b : Addr} {x : α}

/-- The containers hold one list of objects. -/
theorem Holds.unique {cells' : List (Addr × α)} (h : s.Holds cells) (h' : s.Holds cells') :
    objects cells = objects cells' := by
  have heq := h.row.unique h'.row rfl
  have helements : elements cells = elements cells' := (List.cons.inj heq).2
  have hobjects : ∀ l : List (Addr × α), objects l = (elements l).filterMap Prod.snd := by
    intro l
    simp [objects, elements, List.filterMap_map]
  rw [hobjects, hobjects, helements]

/-- What is not in the memory is not in the list. -/
theorem Holds.fresh (h : s.Holds cells) (ha : s.memory a = none) :
    a ∉ s.linkedList :: addrs cells := by
  intro hmem
  have hin : a ∈ addrs ((s.linkedList, (none : Option α)) :: elements cells) := by
    rwa [addrs_cons, addrs_elements]
  obtain ⟨⟨b, y⟩, hb, rfl⟩ := List.mem_map.mp hin
  obtain ⟨front, back, heq⟩ := List.append_of_mem hb
  have hrow := h.row
  rw [heq] at hrow
  have hlive := (cells_append.mp hrow).2.1
  rw [ha] at hlive
  cases hlive

/-- The cells before the first object that says stop, and the others. -/
theorem exists_split (stop : α → Bool) (cells : List (Addr × α)) :
    ∃ front back, cells = front ++ back ∧ (∀ p ∈ front, stop p.2 = false) ∧
      ∀ p ∈ back.head?, stop p.2 = true := by
  refine ⟨cells.takeWhile fun p => !stop p.2, cells.dropWhile fun p => !stop p.2,
    List.takeWhile_append_dropWhile.symm, fun p hp => ?_, fun p hp => ?_⟩
  · simpa using List.mem_takeWhile_imp hp
  · have hhead := List.head?_dropWhile_not (fun p : Addr × α => !stop p.2) cells
    rw [Option.mem_def.mp hp] at hhead
    simpa using hhead

/-- The iterator stops at the last container that is passed, in front of the first object
that says stop. -/
theorem advance_eq (stop : α → Bool) (h : s.Holds (front ++ back))
    (hfront : ∀ p ∈ front, stop p.2 = false) (hback : ∀ p ∈ back.head?, stop p.2 = true) :
    ∃ before b y, (s.linkedList, none) :: elements front = before ++ [(b, y)] ∧
      s.advance stop s.linkedList = .ok b ∧ s.objectBehind b = .ok back.head? := by
  have hrow : Cells s.memory none
      ([] ++ (s.linkedList, none) :: (elements front ++ elements back)) := by
    simpa using h.row
  have hfuel : (elements front).length < s.news := by
    have hturns := h.turns
    simp only [List.length_append] at hturns
    rw [elements_length]
    omega
  obtain ⟨before, b, y, heq, hwalk⟩ := walk_eq
    (fun obj => match obj with | some obj => .ok (stop obj) | none => .error .null) hrow
    (fun p hp => by
      obtain ⟨q, hq, rfl⟩ := List.mem_map.mp hp
      simp [hfront q hq])
    (fun p hp => by
      cases back with
      | nil => simp [elements] at hp
      | cons q back =>
        obtain rfl : (q.1, some q.2) = p := by simpa using hp
        simp [hback q rfl])
    hfuel
  have hsplit : Cells s.memory none (before ++ (b, y) :: elements back) := by
    have hcut : before ++ (b, y) :: elements back = (before ++ [(b, y)]) ++ elements back := by
      simp
    rw [hcut, ← heq]
    simpa using hrow
  refine ⟨before, b, y, heq, hwalk, ?_⟩
  cases back with
  | nil => simp [objectBehind, hsplit.read, elements, firstOf]
  | cons q back =>
    have hcut : before ++ (b, y) :: elements (q :: back) =
        (before ++ [(b, y)]) ++ (q.1, some q.2) :: elements back := by simp
    have hread := (hcut ▸ hsplit).read
    simp [objectBehind, hsplit.read, firstOf, hread]

/-! ## Each function is the one on lists -/

variable {ge : α → α → Bool}

/-- The insertion loop stops in front of the first object that the new one is not `>=` to. -/
theorem insertContainer_objects (hfront : ∀ p ∈ front, (!ge x p.2) = false)
    (hback : ∀ p ∈ back.head?, (!ge x p.2) = true) :
    insertContainer ge x (objects (front ++ back)) = objects (front ++ (a, x) :: back) := by
  rw [objects_append, insertContainer_append fun y hy => ?_, objects_append]
  · cases back with
    | nil => rfl
    | cons q back =>
      have hq : ge x q.2 = false := by simpa using hback q rfl
      simp [insertContainer, hq]
  · obtain ⟨p, hp, rfl⟩ := List.mem_map.mp hy
    simpa using hfront p hp

/-- The iterator is at a container of the list, the last one that was passed. -/
theorem iterator_cell {before : List (Addr × Option α)} {y : Option α}
    (h : s.Holds (front ++ back))
    (hbefore : (s.linkedList, none) :: elements front = before ++ [(b, y)]) :
    Cells s.memory none (before ++ (b, y) :: elements back) ∧
      b ∈ s.linkedList :: addrs (front ++ back) := by
  have hcut : (s.linkedList, none) :: elements (front ++ back) =
      before ++ (b, y) :: elements back := by
    rw [elements_append, ← List.cons_append, hbefore, List.append_assoc, List.singleton_append]
  refine ⟨hcut ▸ h.row, ?_⟩
  have hin : b ∈ addrs ((s.linkedList, (none : Option α)) :: elements (front ++ back)) := by
    rw [hcut]
    simp
  rwa [addrs_cons, addrs_elements] at hin

/-- The container is linked in behind the iterator. -/
theorem linked_holds (x : α) {before : List (Addr × Option α)} {y : Option α}
    (h : s.Holds (front ++ back)) (hnews : (front ++ back).length + 1 < s.news)
    (ha : a ∉ s.linkedList :: addrs (front ++ back))
    (hbefore : (s.linkedList, none) :: elements front = before ++ [(b, y)]) :
    Holds
      { s with
        memory := writeCell (writeCell s.memory a ⟨some x, firstOf (elements back) none⟩) b
          ⟨y, some a⟩ }
      (front ++ (a, x) :: back) := by
  obtain ⟨hrow, -⟩ := iterator_cell h hbefore
  have hcut : (s.linkedList, none) :: elements (front ++ (a, x) :: back) =
      before ++ (b, y) :: (a, some x) :: elements back := by
    rw [elements_append, ← List.cons_append, hbefore]
    simp
  have hout : a ∉ addrs (before ++ (b, y) :: elements back) := by
    have heq : addrs (before ++ (b, y) :: elements back) =
        s.linkedList :: addrs (front ++ back) := by
      rw [← List.singleton_append, ← List.append_assoc, ← hbefore]
      simp
    rwa [heq]
  refine ⟨hcut ▸ hrow.link hrow.nodup hout, ?_⟩
  simp only [List.length_append, List.length_cons] at hnews ⊢
  omega

/-- A new container is not in the list. -/
theorem newContainer_holds (h : s.Holds cells) (ha : a ∉ s.linkedList :: addrs cells)
    (object : Option α) : (s.newContainer a object).Holds cells := by
  have hout : a ∉ addrs ((s.linkedList, none) :: elements cells) := by
    rwa [addrs_cons, addrs_elements]
  exact ⟨h.row.write hout _, Nat.lt_succ_of_lt h.turns⟩

/-- The container behind the iterator is taken out and freed. -/
theorem deleteBehind_holds {before : List (Addr × Option α)} {y : Option α} {p : Addr × α}
    (h : s.Holds (front ++ p :: back))
    (hbefore : (s.linkedList, none) :: elements front = before ++ [(b, y)]) :
    ∃ s', s.deleteBehind b p.1 = .ok (firstOf (elements back) none, s') ∧
      s'.Holds (front ++ back) := by
  obtain ⟨hrow, -⟩ := iterator_cell h hbefore
  have hcut : before ++ (b, y) :: elements (p :: back) =
      (before ++ [(b, y)]) ++ (p.1, some p.2) :: elements back := by simp
  have hnext := (hcut ▸ hrow).read
  have hnodup := hrow.nodup
  have hb : freeCell s.memory p.1 b = some ⟨y, some p.1⟩ := by
    have hne : b ≠ p.1 := by
      rintro rfl
      simp [List.nodup_append] at hnodup
    rw [freeCell, Function.update_of_ne hne]
    exact (cells_append.mp hrow).2.1
  have hcut' : (s.linkedList, none) :: elements (front ++ back) =
      before ++ (b, y) :: elements back := by
    rw [elements_append, ← List.cons_append, hbefore, List.append_assoc, List.singleton_append]
  refine ⟨_, by simp [deleteBehind, hnext, setNext, hb]; rfl, ?_, ?_⟩
  · exact hcut' ▸ hrow.unlink hnodup
  · have hturns := h.turns
    simp only [List.length_append, List.length_cons] at hturns ⊢
    omega

/-- The first element. -/
theorem objectBehind_linkedList (h : s.Holds cells) :
    s.objectBehind s.linkedList = .ok cells.head? := by
  have hrow : Cells s.memory none ([] ++ (s.linkedList, none) :: elements cells) := h.row
  have hread := hrow.read
  cases cells with
  | nil => simp [objectBehind, hread, elements, firstOf]
  | cons p back =>
    have hrest : Cells s.memory none ([(s.linkedList, none)] ++ (p.1, some p.2) :: elements back) :=
      h.row
    have hnext := hrest.read
    simp [objectBehind, hread, firstOf, hnext]

/-- `pop`. -/
theorem pop_refines (h : s.Holds cells) :
    ∃ s' cells', s.pop = .ok s' ∧ s'.Holds cells' ∧
      objects cells' = OrderedList.pop (objects cells) := by
  have hbefore : (s.linkedList, none) :: elements ([] : List (Addr × α)) =
      [] ++ [(s.linkedList, none)] := rfl
  have hfirst := objectBehind_linkedList h
  cases cells with
  | nil => exact ⟨s, [], by simp [pop, hfirst], h, rfl⟩
  | cons p back =>
    have hcons : s.Holds ([] ++ p :: back) := h
    obtain ⟨s', hdelete, hholds⟩ := deleteBehind_holds hcons hbefore
    exact ⟨s', back, by simp [pop, hfirst, hdelete], hholds, rfl⟩

section Refinement

variable [DecidableEq α]

/-- The search stops in front of the container with the object. -/
theorem mem_objects_iff (hfront : ∀ p ∈ front, decide (x = p.2) = false)
    (hback : ∀ p ∈ back.head?, decide (x = p.2) = true) :
    x ∈ objects (front ++ back) ↔ back.head?.isSome := by
  have hnot : x ∉ objects front := by
    intro hx
    obtain ⟨p, hp, hpx⟩ := List.mem_map.mp hx
    have hne := of_decide_eq_false (hfront p hp)
    exact hne hpx.symm
  cases back with
  | nil => simpa [objects] using hnot
  | cons q back =>
    have hq : x = q.2 := of_decide_eq_true (hback q rfl)
    simp [hq]

/-- A list after a call that may have linked in the container `a`. -/
structure Pushed (s s' : Containers α) (a : Addr) (cells cells' : List (Addr × α)) : Prop where
  holds : s'.Holds cells'
  head : s'.linkedList = s.linkedList
  news : s'.news = s.news
  length : cells'.length ≤ cells.length + 1
  addrs : addrs cells' ⊆ a :: Lib.addrs cells
  others : ∀ b, b ∉ s.linkedList :: a :: Lib.addrs cells → s'.memory b = s.memory b

/-- `push_container` is `push_container` on the list of objects. -/
theorem pushContainer_refines (ge : α → α → Bool) (h : s.Holds cells)
    (hnews : cells.length + 1 < s.news) (ha : a ∉ s.linkedList :: addrs cells)
    (hcell : s.memory a = some ⟨some x, none⟩) :
    ∃ s' cells', pushContainer ge s a x = .ok s' ∧
      objects cells' = OrderedList.pushContainer ge x (objects cells) ∧
      Pushed s s' a cells cells' := by
  obtain ⟨front, back, rfl, hfront, hback⟩ := exists_split (fun obj => decide (x = obj)) cells
  obtain ⟨_, b, _, _, hadvance, hbehind⟩ := advance_eq (fun obj => decide (x = obj)) h hfront hback
  have hmem := mem_objects_iff hfront hback
  cases hfound : back.head? with
  | some q =>
    rw [hfound] at hbehind hmem
    refine ⟨s, front ++ back, ?_, ?_, ⟨h, rfl, rfl, by omega, ?_, fun _ _ => rfl⟩⟩
    · simp [pushContainer, hadvance, hbehind]
    · rw [OrderedList.pushContainer, if_pos (hmem.mpr rfl)]
    · exact List.subset_cons_self a _
  | none =>
    rw [hfound] at hbehind hmem
    have hout : x ∉ objects (front ++ back) := fun hx => by simpa using hmem.mp hx
    obtain ⟨front', back', hcells, hge, hlt⟩ :=
      exists_split (fun obj => !ge x obj) (front ++ back)
    rw [hcells] at h hnews ha hout
    obtain ⟨before, b', y, hbefore, hadvance', hbehind'⟩ := 
      advance_eq (fun obj => !ge x obj) h hge hlt
    obtain ⟨hrow, hmemb'⟩ := iterator_cell h hbefore
    have hb' : s.memory b' = some ⟨y, firstOf (elements back') none⟩ :=
      (cells_append.mp hrow).2.1
    have hab' : b' ≠ a := fun he => ha (he ▸ hmemb')
    have hlinked := linked_holds x h hnews ha hbefore
    refine ⟨_, front' ++ (a, x) :: back', ?_, ?_, ⟨hlinked, rfl, rfl, ?_, ?_, ?_⟩⟩
    · cases hnext : back'.head? with
      | some q =>
        obtain ⟨rest, rfl⟩ : ∃ rest, back' = q :: rest := List.head?_eq_some_iff.mp hnext
        rw [hnext] at hbehind'
        have hwritten : writeCell s.memory a ⟨some x, some q.1⟩ b' =
            some ⟨y, firstOf (elements (q :: rest)) none⟩ :=
          (Function.update_of_ne hab' _ _).trans hb'
        simp [pushContainer, hadvance, hbehind, hadvance', hbehind', setNext, hcell, hwritten,
          firstOf]
      | none =>
        obtain rfl : back' = [] := List.head?_eq_none_iff.mp hnext
        rw [hnext] at hbehind'
        have hsame : writeCell s.memory a ⟨some x, none⟩ = s.memory := by
          rw [writeCell, ← hcell, Function.update_eq_self]
        simp [pushContainer, hadvance, hbehind, hadvance', hbehind', setNext, hb', hsame,
          elements, firstOf]
    · rw [hcells, OrderedList.pushContainer, if_neg hout, insertContainer_objects hge hlt]
    · simp [hcells]
      omega
    · rw [hcells]
      intro c hc
      simp only [addrs_append, addrs_cons, List.mem_append, List.mem_cons] at hc ⊢
      tauto
    · intro c hc
      rw [hcells] at hc
      simp only [List.mem_cons, not_or] at hc
      have hcb' : c ≠ b' := by
        rintro rfl
        rcases List.mem_cons.mp hmemb' with heq | hin
        · exact hc.1 heq
        · exact hc.2.2 hin
      simp [writeCell, Function.update_of_ne hcb', Function.update_of_ne hc.2.1]

/-- `push`. -/
theorem push_refines (x : α) (ge : α → α → Bool) (h : s.Holds cells)
    (ha : a ∉ s.linkedList :: addrs cells) :
    ∃ s' cells', push ge s a x = .ok s' ∧ s'.Holds cells' ∧
      objects cells' = OrderedList.push ge x (objects cells) := by
  have hnews : cells.length + 1 < (s.newContainer a (some x)).news :=
    Nat.succ_lt_succ h.turns
  have hcell : (s.newContainer a (some x)).memory a = some ⟨some x, none⟩ := by
    simp [newContainer, writeCell]
  obtain ⟨s', cells', hpush, hobjects, hpushed⟩ :=
    pushContainer_refines ge (newContainer_holds h ha _) hnews ha hcell
  exact ⟨s', cells', hpush, hpushed.holds, hobjects⟩

/-- `remove`: the pointer that is returned is the sentinel, or it points to what followed the
removed container. -/
theorem remove_refines (h : s.Holds cells) (x : α) :
    ∃ r s' cells', s.remove x = .ok (r, s') ∧ s'.Holds cells' ∧
      (x ∉ objects cells → s' = s) ∧
      objects cells' = (OrderedList.remove x (objects cells)).2 ∧
      match (OrderedList.remove x (objects cells)).1 with
      | none => r = some s'.linkedList
      | some rest => ∃ behind, behind <:+ cells' ∧ objects behind = rest ∧
          r = firstOf (elements behind) none := by
  obtain ⟨front, back, rfl, hfront, hback⟩ := exists_split (fun obj => decide (x = obj)) cells
  obtain ⟨before, b, y, hbefore, hadvance, hbehind⟩ :=
    advance_eq (fun obj => decide (x = obj)) h hfront hback
  have hout : x ∉ objects front := by
    have hmem : x ∈ objects (front ++ []) ↔ _ := mem_objects_iff hfront (by simp)
    simpa using hmem
  cases back with
  | nil =>
    have hremove : OrderedList.remove x (objects front) = (none, objects front) := by
      refine Prod.ext (remove_fst_eq_none.mpr hout) ?_
      rw [remove_snd, List.erase_of_not_mem hout]
    rw [List.append_nil] at h ⊢
    refine ⟨some s.linkedList, s, front, ?_, h, fun _ => rfl, by rw [hremove], by rw [hremove]⟩
    simp [remove, hadvance, hbehind]
  | cons p back =>
    obtain ⟨s', hdelete, hholds⟩ := deleteBehind_holds h hbefore
    have hp : x = p.2 := of_decide_eq_true (hback p rfl)
    have hremove : OrderedList.remove x (objects (front ++ p :: back)) =
        (some (objects back), objects front ++ objects back) := by
      rw [objects_append, objects_cons, ← hp, remove_append_cons hout]
    refine ⟨firstOf (elements back) none, s', front ++ back, ?_, hholds, ?_, ?_, ?_⟩
    · simp [remove, hadvance, hbehind, hdelete]
    · exact fun hmem => absurd (by simp [hp]) hmem
    · rw [hremove, objects_append]
    · rw [hremove]
      exact ⟨back, List.suffix_append front back, rfl, rfl⟩

/-- The loop of `sort`: what is behind the old sentinel is pushed, one container after the
other. -/
theorem sortFrom_refines (ge : α → α → Bool) {pending : List (Addr × α)} {fuel : Nat}
    (h : s.Holds cells) (hpending : Cells s.memory none (elements pending))
    (hdisjoint : ∀ b ∈ addrs pending, b ∉ s.linkedList :: addrs cells)
    (hfuel : pending.length ≤ fuel) (hnews : cells.length + pending.length < s.news) :
    ∃ s' cells', sortFrom ge fuel (firstOf (elements pending) none) s = .ok s' ∧
      s'.Holds cells' ∧ s'.linkedList = s.linkedList ∧
      objects cells' = (objects pending).foldl
        (fun acc current => OrderedList.pushContainer ge current acc) (objects cells) ∧
      addrs cells' ⊆ addrs cells ++ addrs pending := by
  induction pending generalizing s cells fuel with
  | nil => exact ⟨s, cells, by cases fuel <;> rfl, h, rfl, rfl, by simp⟩
  | cons p pending ih =>
    obtain ⟨a, x⟩ := p
    obtain ⟨fuel, rfl⟩ : ∃ n, fuel = n + 1 := ⟨fuel - 1, by simp at hfuel; omega⟩
    rw [elements_cons] at hpending
    have hnodup := hpending.nodup
    rw [addrs_cons, addrs_elements] at hnodup
    obtain ⟨hapending, -⟩ := List.nodup_cons.mp hnodup
    obtain ⟨hfirst, hrest⟩ := hpending
    have ha := hdisjoint a List.mem_cons_self
    -- the container is cut from the ones behind it
    let cut : Containers α := { s with memory := writeCell s.memory a ⟨some x, none⟩ }
    have hcut : cut.Holds cells := by
      refine ⟨h.row.write ?_ _, h.turns⟩
      rwa [addrs_cons, addrs_elements]
    have hcell : cut.memory a = some ⟨some x, none⟩ := by simp [cut, writeCell]
    have hturns : cells.length + 1 < cut.news := by
      change cells.length + 1 < s.news
      simp only [List.length_cons] at hnews
      omega
    obtain ⟨s', cells', hpush, hobjects, hpushed⟩ := pushContainer_refines ge hcut hturns ha hcell
    have hout : ∀ b ∈ addrs pending, b ∉ s.linkedList :: a :: addrs cells := by
      intro b hb hmem
      have hb' := hdisjoint b (List.mem_cons_of_mem a hb)
      rcases List.mem_cons.mp hmem with rfl | hmem
      · exact hb' List.mem_cons_self
      rcases List.mem_cons.mp hmem with rfl | hmem
      · exact hapending hb
      · exact hb' (List.mem_cons_of_mem _ hmem)
    have hpending' : Cells s'.memory none (elements pending) := by
      have hcutrest : Cells cut.memory none (elements pending) :=
        hrest.write (by rwa [addrs_elements]) _
      refine hcutrest.congr fun b hb => hpushed.others b ?_
      rw [addrs_elements] at hb
      exact hout b hb
    have hdisjoint' : ∀ b ∈ addrs pending, b ∉ s'.linkedList :: addrs cells' := by
      intro b hb hmem
      refine hout b hb ?_
      rcases List.mem_cons.mp hmem with heq | hmem
      · rw [heq, hpushed.head]
        exact List.mem_cons_self
      · exact List.mem_cons_of_mem _ (hpushed.addrs hmem)
    have hnews' : cells'.length + pending.length < s'.news := by
      have hlength := hpushed.length
      rw [hpushed.news]
      change cells'.length + pending.length < s.news
      simp only [List.length_cons] at hnews
      omega
    obtain ⟨s'', cells'', hsort, hholds, hhead, hfold, haddrs⟩ :=
      ih hpushed.holds hpending' hdisjoint' (by simpa using hfuel) hnews'
    refine ⟨s'', cells'', ?_, hholds, hhead.trans hpushed.head, ?_, fun c hc => ?_⟩
    · simp only [elements_cons, firstOf, sortFrom, readCell, setNext, hfirst, ok_bind]
      exact (congrArg (· >>= _) hpush).trans hsort
    · rw [hfold, hobjects]
      rfl
    · rcases List.mem_append.mp (haddrs hc) with hc | hc
      · rcases List.mem_cons.mp (hpushed.addrs hc) with rfl | hc
        · simp
        · exact List.mem_append_left _ hc
      · exact List.mem_append_right _ (List.mem_cons_of_mem a hc)

/-- `sort`; the old sentinel is freed. -/
theorem sort_refines (ge : α → α → Bool) (h : s.Holds cells)
    (ha : a ∉ s.linkedList :: addrs cells) :
    ∃ s' cells', s.sort ge a = .ok s' ∧ s'.Holds cells' ∧
      objects cells' = OrderedList.sort ge (objects cells) := by
  have hhold := newContainer_holds h ha none
  let fresh : Containers α := { s.newContainer a none with linkedList := a }
  have hfresh : fresh.Holds [] := by
    refine ⟨⟨?_, trivial⟩, Nat.succ_pos _⟩
    simp [fresh, newContainer, writeCell, elements, firstOf]
  have hnodup := h.row.nodup
  rw [addrs_cons, addrs_elements] at hnodup
  obtain ⟨hold, -⟩ := List.nodup_cons.mp hnodup
  have hpending : Cells fresh.memory none (elements cells) := hhold.row.2
  have hdisjoint : ∀ b ∈ addrs cells, b ∉ fresh.linkedList :: addrs ([] : List (Addr × α)) := by
    intro b hb hmem
    obtain rfl : b = a := by simpa [fresh] using hmem
    exact ha (List.mem_cons_of_mem _ hb)
  have hfuel : cells.length ≤ fresh.news := Nat.le_succ_of_le h.turns.le
  have hnews : ([] : List (Addr × α)).length + cells.length < fresh.news := by
    have hturns := h.turns
    simp only [List.length_nil, fresh, newContainer]
    omega
  obtain ⟨s', cells', hsort, hholds, hhead, hobjects, haddrs⟩ :=
    sortFrom_refines ge hfresh hpending hdisjoint hfuel hnews
  have hread : readCell fresh.memory s.linkedList = .ok ⟨none, firstOf (elements cells) none⟩ := by
    have hrow : Cells fresh.memory none ([] ++ (s.linkedList, none) :: elements cells) := hhold.row
    exact hrow.read
  refine ⟨{ s' with memory := freeCell s'.memory s.linkedList }, cells', ?_, ?_, hobjects⟩
  · rw [sort]
    change (readCell fresh.memory s.linkedList >>= _) = _
    rw [hread, ok_bind]
    exact congrArg (· >>= _) hsort
  · refine ⟨hholds.row.free ?_, hholds.turns⟩
    rw [addrs_cons, addrs_elements, hhead]
    intro hmem
    rcases List.mem_cons.mp hmem with heq | hmem
    · exact ha (heq ▸ List.mem_cons_self)
    · exact hold (by simpa using haddrs hmem)

end Refinement

end Containers

end Rubyk.OrderedList
