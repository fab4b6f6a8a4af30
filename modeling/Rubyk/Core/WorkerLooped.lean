/-
  Core/WorkerLooped.lean --- `trigger_loop_events`, with nodes that register and
  unregister themselves and each other while it runs.

  WHAT IS MODELLED.  Nodes get into the deque of the worker through `Node::loop_me`
  and `Node::unloop_me` only, and each keeps a flag `looped_` of its own.  The state
  is the worker with these flags.  Every behaviour of every handler, as far as the
  worker and the flags see it, is a list of actions.

  ITERATORS.  The loop keeps its iterator and the end iterator while handlers change the
  deque.  What is documented of `std::deque` is that `push_back` invalidates both, and that
  `erase` does, but for the first and the last element.  To go on with an iterator that is
  not valid is a fault.

  HISTORY.  `start`, `bangs` and `left` belong to the newest `loop()`: the deque it
  found, the nodes it banged, each with its flag at that time, and the nodes that
  were unregistered before their bang.  No transition reads them.
-/
import Rubyk.Core.WorkerCancel
import Mathlib.Data.List.Infix

set_option autoImplicit false

namespace Rubyk

/-- A worker and the `looped_` flags of the nodes. -/
structure Looping (V : Type) where
  machine : Machine V
  looped : NodeId → Bool
  /-- the iterators of `trigger_loop_events` are valid, both of them -/
  valid : Bool
  start : List NodeId
  bangs : List (NodeId × Bool)
  left : List NodeId

/-- What happens to looped nodes. -/
inductive LoopAction (V : Type) where
  /-- `Node::loop_me` -/
  | loopMe (node : NodeId)
  /-- `Node::unloop_me` -/
  | unloopMe (node : NodeId)
  /-- anything else the worker does or is asked to do -/
  | worker (a : Action V)
  deriving DecidableEq, Repr

namespace Looping

open Machine

variable {V : Type}

/-- Before the first `loop()`. -/
def init (machine : Machine V) (looped : NodeId → Bool) : Looping V where
  machine := machine
  looped := looped
  valid := true
  start := []
  bangs := []
  left := []

/-- The loop of the worker that waits at the bottom of the stack, when it is
`trigger_loop_events`: its iterator and its end. -/
def triggering (stack : List (Frame V)) : Option (Nat × Nat) :=
  match stack.getLast? with
  | some (.triggerLoopEvents it endIt) => some (it, endIt)
  | _ => none

/-- The iterators of `trigger_loop_events` are valid when the node has been erased. -/
def keepsIterators (m : Machine V) (node : NodeId) : Bool :=
  match triggering m.stack, m.loopedNodes.items.idxOf? node with
  | some (it, endIt), some i => m.loopedNodes.Keeps i it && m.loopedNodes.Keeps i endIt
  | _, _ => true

/-- The action makes `trigger_loop_events` go on with its iterators. -/
def goesOn (m : Machine V) : Action V → Bool
  | .handlerReturns =>
      match m.stack with
      | .triggerLoopEvents _ _ :: _ => true
      | _ => false
  | _ => false

/-- Note the bang, when `trigger_loop_events` has just called one. -/
def noteBang (w : Looping V) : Looping V :=
  match w.machine.stack with
  | .triggerLoopEvents it _ :: _ =>
      match w.machine.loopedNodes.get? it with
      | some node => { w with bangs := w.bangs ++ [(node, w.looped node)] }
      | none => w
  | _ => w

/-- The history of a new `loop()`, which takes new iterators. -/
def noteStart (w : Looping V) : Action V → Looping V
  | .loop _ =>
      { w with valid := true, start := w.machine.loopedNodes.items, bangs := [], left := [] }
  | _ => w

variable [DecidableEq V]

/-- One step.  The deque is left to `loop_me` and `unloop_me`. -/
def step (w : Looping V) : LoopAction V → Except Fault (Looping V)
  | .loopMe node =>
      .ok (if w.looped node then w
        else { w with
          machine := w.machine.registerLoopedNode node
          looped := Function.update w.looped node true
          valid := false })
  | .unloopMe node =>
      .ok (if w.looped node then
          { w with
            machine := w.machine.freeLoopedNode node
            looped := Function.update w.looped node false
            valid := w.valid && keepsIterators w.machine node
            left := if node ∈ w.bangs.map Prod.fst then w.left else w.left ++ [node] }
        else w)
  | .worker (.registerLoopedNode _) => .error .notEnabled
  | .worker (.freeLoopedNode _) => .error .notEnabled
  | .worker a =>
      if goesOn w.machine a && !w.valid then .error .badIterator
      else
        match w.machine.step a with
        | .error fault => .error fault
        | .ok m =>
            let w' := { w.noteStart a with machine := m }
            .ok (if resumesLoop w.machine a then w'.noteBang else w')

/-! ## One bang for each looped node -/

/-- The flags say who is in the deque, and nobody is in it twice. -/
structure Consistent (w : Looping V) : Prop where
  flags : ∀ node, w.looped node = true ↔ node ∈ w.machine.loopedNodes.items
  nodup : w.machine.loopedNodes.items.Nodup

/-- What `trigger_loop_events` should do. -/
structure BangedRight (w : Looping V) : Prop where
  /-- the loop does not read outside of the deque when its handler returns -/
  inBounds : w.step (.worker .handlerReturns) ≠ .error .outOfBounds
  /-- nor does it go on with an iterator that is not valid -/
  validIterators : w.step (.worker .handlerReturns) ≠ .error .badIterator
  /-- no unregistered node is banged -/
  registered : ∀ b ∈ w.bangs, b.2 = true
  atMostOnce : ∀ node ∈ w.start, (w.bangs.map Prod.fst).count node ≤ 1
  /-- once the loop is over, every node that was registered when it started, and was not
  unregistered before its turn, has been banged -/
  once : triggering w.machine.stack = none → ∀ node ∈ w.start, node ∉ w.left →
    (w.bangs.map Prod.fst).count node = 1

/-- While `trigger_loop_events` waits for a handler, no node is put into the deque, and none is
taken out of it but the first one, when the loop is past it. -/
def KeepsIterators (w : Looping V) : LoopAction V → Prop
  | .loopMe node => w.looped node = false → triggering w.machine.stack = none
  | .unloopMe node => w.looped node = true → ∀ it endIt,
      triggering w.machine.stack = some (it, endIt) →
        w.machine.loopedNodes.items.head? = some node ∧ it ≠ w.machine.loopedNodes.first
  | .worker _ => True

/-! ## The invariant -/

omit [DecidableEq V] in
@[simp] theorem triggering_nil : triggering ([] : List (Frame V)) = none := rfl

omit [DecidableEq V] in
@[simp] theorem triggering_freeEventsFor (node : NodeId) (e : Event V)
    (stack : List (Frame V)) :
    triggering (.freeEventsFor node e :: stack) = triggering stack := by
  cases stack with
  | nil => rfl
  | cons f fs => simp [triggering, List.getLast?_cons_cons]

omit [DecidableEq V] in
@[simp] theorem triggering_popEvents (T : Int) (e : Event V) :
    triggering [.popEvents T e] = none := rfl

omit [DecidableEq V] in
@[simp] theorem triggering_triggerLoopEvents (it endIt : Nat) :
    triggering [(.triggerLoopEvents it endIt : Frame V)] = some (it, endIt) := rfl

/-- The nodes that were registered when the loop started have been banged, up to the one at
its iterator.  Those that are to come are where they were. -/
structure OnTrack (w : Looping V) : Prop where
  sane : Sane w.machine
  consistent : Consistent w
  nodup : w.start.Nodup
  inside : ∀ it endIt, triggering w.machine.stack = some (it, endIt) →
    w.valid = true ∧ w.machine.loopedNodes.first ≤ it ∧ it < endIt ∧
      endIt = w.machine.loopedNodes.stop ∧ w.machine.loopedNodes.items <:+ w.start ∧
      w.bangs = (w.start.take (w.start.length - (endIt - (it + 1)))).map (·, true)
  outside : triggering w.machine.stack = none → w.bangs = w.start.map (·, true)

omit [DecidableEq V] in
theorem OnTrack.bangs_eq {w : Looping V} (h : OnTrack w) :
    ∃ k, w.bangs = (w.start.take k).map (·, true) := by
  cases htrig : triggering w.machine.stack with
  | none => exact ⟨w.start.length, by rw [h.outside htrig, List.take_length]⟩
  | some p =>
    obtain ⟨it, endIt⟩ := p
    obtain ⟨-, -, -, -, -, hbangs⟩ := h.inside it endIt htrig
    exact ⟨_, hbangs⟩

/-- The only way to read outside of the deque, and to fault because of it. -/
theorem handlerReturns_fault {m : Machine V} {fault : Fault}
    (h : m.handlerReturns = .error fault) : fault ≠ .badIterator ∧
      (fault = .outOfBounds → ∃ it endIt stack, m.stack = .triggerLoopEvents it endIt :: stack ∧
        it + 1 < endIt ∧ m.loopedNodes.get? (it + 1) = none) := by
  unfold handlerReturns at h
  split at h
  · obtain rfl := Except.error.inj h
    simp
  · rename_i it endIt stack hstack
    unfold triggerLoopEvents at h
    split at h
    · rename_i hlt
      split at h
      · cases h
      · rename_i hnone
        obtain rfl := Except.error.inj h
        exact ⟨by simp, fun _ => ⟨it, endIt, stack, hstack, hlt, hnone⟩⟩
    · cases h
  · cases h
  · split at h
    · cases h
    · obtain rfl := Except.error.inj h
      simp

/-- The next node is in the deque. -/
theorem get?_next {d : Lib.Deque NodeId} {it endIt : Nat} (hfirst : d.first ≤ it)
    (hlt : it < endIt) (hend : endIt = d.stop) : ∃ node, d.get? it = some node := by
  have hindex : it - d.first < d.items.length := by
    rw [Lib.Deque.stop] at hend
    omega
  exact ⟨_, (Lib.Deque.get?_of_le hfirst).trans (List.getElem?_eq_getElem hindex)⟩

omit [DecidableEq V] in
theorem exists_frame_of_goesOn {m : Machine V} {a : Action V} (h : goesOn m a = true) :
    ∃ it endIt stack, m.stack = .triggerLoopEvents it endIt :: stack := by
  cases a with
  | handlerReturns =>
    rw [goesOn] at h
    split at h
    · exact ⟨_, _, _, by assumption⟩
    · cases h
  | _ => cases h

theorem OnTrack.handlerReturns_ne {w : Looping V} (h : OnTrack w) :
    w.step (.worker .handlerReturns) ≠ .error .outOfBounds ∧
      w.step (.worker .handlerReturns) ≠ .error .badIterator := by
  have hframe {it endIt : Nat} {stack : List (Frame V)}
      (hstack : w.machine.stack = .triggerLoopEvents it endIt :: stack) :
      triggering w.machine.stack = some (it, endIt) := by
    obtain rfl : stack = [] := h.sane.stack_eq_nil hstack (by simp)
    rw [hstack, triggering_triggerLoopEvents]
  have hvalid : (goesOn w.machine .handlerReturns && !w.valid) = false := by
    cases hgoes : goesOn w.machine .handlerReturns with
    | false => rfl
    | true =>
      obtain ⟨it, endIt, stack, hstack⟩ := exists_frame_of_goesOn hgoes
      obtain ⟨hvalid, -⟩ := h.inside it endIt (hframe hstack)
      rw [hvalid]
      rfl
  have hfault {fault : Fault} (hstep : w.step (.worker .handlerReturns) = .error fault) :
      w.machine.handlerReturns = .error fault := by
    simp only [step, hvalid, Bool.false_eq_true, if_false, Machine.step] at hstep
    split at hstep
    · rename_i fault' heq
      rw [heq, Except.error.inj hstep]
    · cases hstep
  refine ⟨fun hstep => ?_, fun hstep => (handlerReturns_fault (hfault hstep)).1 rfl⟩
  obtain ⟨it, endIt, stack, hstack, hlt, hnone⟩ := (handlerReturns_fault (hfault hstep)).2 rfl
  obtain ⟨-, hfirst, -, hend, -, -⟩ := h.inside it endIt (hframe hstack)
  obtain ⟨node, hnode⟩ := get?_next (Nat.le_succ_of_le hfirst) hlt hend
  rw [hnode] at hnone
  cases hnone

theorem OnTrack.bangedRight {w : Looping V} (h : OnTrack w) : BangedRight w := by
  obtain ⟨k, hk⟩ := h.bangs_eq
  have hnodes : w.bangs.map Prod.fst = w.start.take k := by
    rw [hk, List.map_map]
    simp [Function.comp_def]
  refine ⟨h.handlerReturns_ne.1, h.handlerReturns_ne.2, ?_, ?_, ?_⟩
  · intro b hb
    rw [hk] at hb
    obtain ⟨node, -, rfl⟩ := List.mem_map.mp hb
    rfl
  · intro node _
    rw [hnodes]
    exact List.nodup_iff_count_le_one.mp (h.nodup.sublist (List.take_sublist k _)) node
  · intro htrig node hnode _
    rw [h.outside htrig, List.map_map]
    simpa [Function.comp_def] using List.count_eq_one_of_mem h.nodup hnode

/-! ## Steps -/

section Steps

variable {w : Looping V} {m m' : Machine V}

omit [DecidableEq V] in
/-- Nothing that matters here happened. -/
theorem OnTrack.of_same (h : OnTrack w) (hsane : Sane m)
    (hlooped : m.loopedNodes = w.machine.loopedNodes)
    (htrig : triggering m.stack = triggering w.machine.stack) :
    OnTrack { w with machine := m } where
  sane := hsane
  consistent := ⟨hlooped ▸ h.consistent.flags, hlooped ▸ h.consistent.nodup⟩
  nodup := h.nodup
  inside := hlooped ▸ htrig ▸ h.inside
  outside := htrig ▸ h.outside

theorem freeEventsFor_same (node : NodeId) (it : List (Event V)) (m : Machine V) :
    (freeEventsFor node it m).loopedNodes = m.loopedNodes ∧
      triggering (freeEventsFor node it m).stack = triggering m.stack := by
  refine freeEventsFor_induct
    (P := fun m' => m'.loopedNodes = m.loopedNodes ∧ triggering m'.stack = triggering m.stack)
    ?_ ?_ ⟨rfl, rfl⟩
  · intro m' e _ _ h _
    simpa using h
  · intro m' e _ _ h
    exact h

omit [DecidableEq V] in
/-- `pop_events` bangs no looped node. -/
theorem popEvents_same (hstack : m.stack = []) (realTime : Int) :
    (popEvents realTime m).loopedNodes = m.loopedNodes ∧
      triggering (popEvents realTime m).stack = none ∧
      ∀ it endIt rest, (popEvents realTime m).stack ≠ .triggerLoopEvents it endIt :: rest := by
  rcases popEvents_cases realTime m with ⟨e, rest, -, -, heq⟩ | ⟨-, heq⟩
  · simp [heq, hstack]
  · simp [heq, hstack]

omit [DecidableEq V] in
theorem noteBang_of_ne (h : ∀ it endIt rest,
    w.machine.stack ≠ .triggerLoopEvents it endIt :: rest) : w.noteBang = w := by
  unfold noteBang
  split
  · rename_i it endIt rest heq
    exact absurd heq (h it endIt rest)
  · rfl

omit [DecidableEq V] in
/-- `trigger_loop_events` goes on at `it`, all nodes before it having been banged. -/
theorem OnTrack.triggers {it endIt : Nat} (hsane : Sane w.machine) (hcons : Consistent w)
    (hnodup : w.start.Nodup) (hstack : w.machine.stack = []) (hvalid : w.valid = true)
    (hfirst : w.machine.loopedNodes.first ≤ it) (hle : it ≤ endIt)
    (hend : endIt = w.machine.loopedNodes.stop)
    (hsuffix : w.machine.loopedNodes.items <:+ w.start)
    (hbangs : w.bangs = (w.start.take (w.start.length - (endIt - it))).map (·, true))
    (hm' : triggerLoopEvents it endIt w.machine = .ok m') :
    OnTrack ({ w with machine := m' } : Looping V).noteBang := by
  have hsane' : Sane m' := hsane.triggerLoopEvents hstack hm'
  rcases triggerLoopEvents_cases hm' with ⟨node, hlt, hnode, rfl⟩ | ⟨hge, rfl⟩
  · have hmem := Lib.Deque.mem_of_get? hnode
    have hflag : w.looped node = true := (hcons.flags node).mpr hmem
    -- the node is as far from the end as it was at the start
    have hstart : w.start[w.start.length - (endIt - it)]? = some node := by
      obtain ⟨front, hfront⟩ := hsuffix
      have hindex : w.start.length - (endIt - it) =
          front.length + (it - w.machine.loopedNodes.first) := by
        rw [← hfront, List.length_append]
        rw [Lib.Deque.stop] at hend
        omega
      rw [Lib.Deque.get?_of_le hfirst] at hnode
      rw [hindex, ← hfront, List.getElem?_append_right (Nat.le_add_right _ _),
        Nat.add_sub_cancel_left]
      exact hnode
    have hnote : ({ w with machine := { w.machine with
          stack := .triggerLoopEvents it endIt :: w.machine.stack
          log := w.machine.log ++ [.looped node] } } : Looping V).noteBang =
        { w with
          machine := { w.machine with
            stack := .triggerLoopEvents it endIt :: w.machine.stack
            log := w.machine.log ++ [.looped node] }
          bangs := w.bangs ++ [(node, true)] } := by
      simp [noteBang, hnode, hflag]
    rw [hnote]
    refine ⟨hsane', ⟨hcons.flags, hcons.nodup⟩, hnodup, ?_, ?_⟩
    · intro it' endIt' htrig
      obtain ⟨rfl, rfl⟩ : it = it' ∧ endIt = endIt' := by simpa [hstack] using htrig
      refine ⟨hvalid, hfirst, hlt, hend, hsuffix, ?_⟩
      have hlength := hsuffix.length_le
      have hnext : w.start.length - (endIt - (it + 1)) = w.start.length - (endIt - it) + 1 := by
        rw [Lib.Deque.stop] at hend
        omega
      rw [hnext, List.take_add_one, hstart, List.map_append, ← hbangs]
      rfl
    · simp [hstack]
  · obtain ⟨hsame, htrig, hne⟩ := popEvents_same hstack w.machine.currentTime
    rw [noteBang_of_ne (by simpa using hne)]
    refine ⟨hsane', ⟨hsame ▸ hcons.flags, hsame ▸ hcons.nodup⟩, hnodup, ?_, fun _ => ?_⟩
    · simp [htrig]
    · have hall : w.start.length - (endIt - it) = w.start.length := by omega
      rw [hall, List.take_length] at hbangs
      exact hbangs

theorem OnTrack.loopMe (h : OnTrack w) (node : NodeId) (hkeeps : KeepsIterators w (.loopMe node))
    {w' : Looping V} (hw' : w.step (.loopMe node) = .ok w') : OnTrack w' := by
  obtain rfl := Except.ok.inj hw'
  cases hflag : w.looped node with
  | true => simpa [hflag] using h
  | false =>
    have hnot : node ∉ w.machine.loopedNodes.items := fun hmem => by
      rw [(h.consistent.flags node).mpr hmem] at hflag
      cases hflag
    have hidle := hkeeps hflag
    have hgrown : (w.machine.registerLoopedNode node).loopedNodes.items =
        w.machine.loopedNodes.items ++ [node] := by
      simp [registerLoopedNode, freeLoopedNode, Lib.Deque.erase_of_not_mem hnot]
    rw [if_neg Bool.false_ne_true]
    refine ⟨h.sane.step (a := .registerLoopedNode node) rfl, ⟨fun n => ?_, ?_⟩, h.nodup,
      fun it endIt htrig => ?_, h.outside⟩
    · rw [hgrown, List.mem_append, List.mem_singleton]
      by_cases hn : n = node
      · simp [hn]
      · simp [hn, h.consistent.flags n]
    · rw [hgrown]
      exact List.nodup_append.mpr ⟨h.consistent.nodup, List.nodup_singleton node,
        fun n hn m hm heq => hnot (List.mem_singleton.mp hm ▸ heq ▸ hn)⟩
    · change triggering w.machine.stack = _ at htrig
      rw [hidle] at htrig
      cases htrig

omit [DecidableEq V] in
/-- The first node is taken out when the loop is past it: both iterators stay valid. -/
theorem freeLoopedNode_front {it endIt : Nat} {node : NodeId}
    (htrig : triggering m.stack = some (it, endIt)) (hfirst : m.loopedNodes.first ≤ it)
    (hlt : it < endIt) (hend : endIt = m.loopedNodes.stop)
    (hhead : m.loopedNodes.items.head? = some node) (hne : it ≠ m.loopedNodes.first) :
    keepsIterators m node = true ∧ (m.freeLoopedNode node).loopedNodes.first ≤ it ∧
      endIt = (m.freeLoopedNode node).loopedNodes.stop ∧
      (m.freeLoopedNode node).loopedNodes.items <:+ m.loopedNodes.items := by
  have hindex : m.loopedNodes.items.idxOf? node = some 0 := by
    obtain ⟨rest, hrest⟩ := List.head?_eq_some_iff.mp hhead
    simp [hrest, List.idxOf?_cons]
  have hmany : 1 < m.loopedNodes.items.length := by
    rw [Lib.Deque.stop] at hend
    omega
  have hkeepsIt : m.loopedNodes.Keeps 0 it := Or.inl ⟨rfl, hmany, hne⟩
  have hkeepsEnd : m.loopedNodes.Keeps 0 endIt := Or.inl ⟨rfl, hmany, by omega⟩
  have hfreed : (m.freeLoopedNode node).loopedNodes = m.loopedNodes.eraseAt 0 :=
    Lib.Deque.erase_of_idxOf? hindex
  obtain ⟨heq, hstop⟩ := Lib.Deque.eraseAt_zero hmany
  rw [hfreed]
  refine ⟨by simp [keepsIterators, htrig, hindex, hkeepsIt, hkeepsEnd],
    (Lib.Deque.get?_eraseAt hkeepsIt hfirst (by omega)).1, hend.trans hstop.symm, ?_⟩
  rw [heq]
  exact List.tail_suffix _

theorem OnTrack.unloopMe (h : OnTrack w) (node : NodeId)
    (hkeeps : KeepsIterators w (.unloopMe node)) {w' : Looping V}
    (hw' : w.step (.unloopMe node) = .ok w') : OnTrack w' := by
  obtain rfl := Except.ok.inj hw'
  by_cases hflag : w.looped node = true
  · rw [if_pos hflag]
    refine ⟨h.sane.step (a := .freeLoopedNode node) rfl, ⟨fun n => ?_, ?_⟩, h.nodup, ?_, h.outside⟩
    · rw [freeLoopedNode, Lib.Deque.items_erase]
      by_cases hn : n = node
      · simpa [hn] using h.consistent.nodup.not_mem_erase
      · simp [Function.update_of_ne hn, List.mem_erase_of_ne hn, h.consistent.flags n]
    · rw [freeLoopedNode, Lib.Deque.items_erase]
      exact h.consistent.nodup.erase node
    · intro it endIt htrig
      change triggering w.machine.stack = _ at htrig
      obtain ⟨hvalid, hfirst, hlt, hend, hsuffix, hbangs⟩ := h.inside it endIt htrig
      obtain ⟨hhead, hne⟩ := hkeeps hflag it endIt htrig
      obtain ⟨hstill, hfirst', hend', hsuffix'⟩ :=
        freeLoopedNode_front (m := w.machine) htrig hfirst hlt hend hhead hne
      have hboth : (w.valid && keepsIterators w.machine node) = true := by
        rw [hvalid, hstill]
        rfl
      exact ⟨hboth, hfirst', hlt, hend', hsuffix'.trans hsuffix, hbangs⟩
  · simpa [hflag] using h

/-- What the worker does, and the history of it. -/
theorem worker_cases {a : Action V} {w' : Looping V} (hw' : w.step (.worker a) = .ok w') :
    (goesOn w.machine a = true → w.valid = true) ∧ ∃ m', w.machine.step a = .ok m' ∧
      w' = if resumesLoop w.machine a then ({ w.noteStart a with machine := m' }).noteBang
        else { w.noteStart a with machine := m' } := by
  cases a with
  | registerLoopedNode node => cases hw'
  | freeLoopedNode node => cases hw'
  | _ =>
    simp only [step] at hw'
    split at hw'
    · cases hw'
    · rename_i hvalid
      refine ⟨fun hgoes => by simpa [hgoes] using hvalid, ?_⟩
      split at hw'
      · cases hw'
      · rename_i m' hm'
        exact ⟨m', hm', (Except.ok.inj hw').symm⟩

/-- A call on the worker that does not resume the loop. -/
theorem OnTrack.called (h : OnTrack w) {a : Action V} {w' : Looping V}
    (hw' : w.step (.worker a) = .ok w') (hresumes : resumesLoop w.machine a = false)
    (hsame : ∀ m', w.machine.step a = .ok m' →
      m'.loopedNodes = w.machine.loopedNodes ∧
        triggering m'.stack = triggering w.machine.stack) : OnTrack w' := by
  obtain ⟨-, m', hm', rfl⟩ := worker_cases hw'
  obtain ⟨hlooped, htrig⟩ := hsame m' hm'
  have hstart : w.noteStart a = w := by
    cases a with
    | loop elapsed => cases hresumes
    | _ => rfl
  rw [if_neg (by simp [hresumes]), hstart]
  exact h.of_same (h.sane.step hm') hlooped htrig

theorem OnTrack.loop (h : OnTrack w) (elapsed : Int) {w' : Looping V}
    (hw' : w.step (.worker (.loop elapsed)) = .ok w') : OnTrack w' := by
  obtain ⟨-, m', hm', rfl⟩ := worker_cases hw'
  obtain ⟨hstack, hloop⟩ := loop_cases hm'
  have hsane : Sane { w.machine with currentTime := elapsed } :=
    h.sane.between hstack elapsed (List.Sublist.refl _) rfl rfl rfl
  have hnone : ([] : List (NodeId × Bool)) = (w.machine.loopedNodes.items.take
      (w.machine.loopedNodes.items.length -
        (w.machine.loopedNodes.stop - w.machine.loopedNodes.first))).map (·, true) := by
    rw [Lib.Deque.stop, Nat.add_sub_cancel_left, Nat.sub_self, List.take_zero, List.map_nil]
  exact OnTrack.triggers
    (w := { machine := { w.machine with currentTime := elapsed }, looped := w.looped,
            valid := true, start := w.machine.loopedNodes.items, bangs := [], left := [] })
    hsane ⟨h.consistent.flags, h.consistent.nodup⟩ h.consistent.nodup hstack rfl
    (le_refl _) (Nat.le_add_right _ _) rfl (List.suffix_refl _) hnone hloop

theorem OnTrack.handlerReturns (h : OnTrack w) {w' : Looping V}
    (hw' : w.step (.worker .handlerReturns) = .ok w') : OnTrack w' := by
  obtain ⟨-, m', hm', heq⟩ := worker_cases hw'
  rcases handlerReturns_cases hm' with ⟨it, endIt, stack, hstack, hloop⟩ |
    ⟨T, e, stack, hstack, rfl⟩ | ⟨node, e, stack, it, hstack, hit, rfl⟩
  · obtain rfl : stack = [] := h.sane.stack_eq_nil hstack (by simp)
    rw [if_pos (by simp [resumesLoop, hstack])] at heq
    rw [heq]
    obtain ⟨hvalid, hfirst, hlt, hend, hsuffix, hbangs⟩ :=
      h.inside it endIt (by rw [hstack]; rfl)
    exact OnTrack.triggers (w := { w with machine := { w.machine with stack := [] } })
      (h.sane.settles hstack (by simp)) ⟨h.consistent.flags, h.consistent.nodup⟩ h.nodup rfl
      hvalid (Nat.le_succ_of_le hfirst) hlt hend hsuffix hbangs hloop
  · obtain rfl : stack = [] := h.sane.stack_eq_nil hstack (by simp)
    rw [if_pos (by simp [resumesLoop, hstack])] at heq
    obtain ⟨hsame, htrig, hne⟩ := popEvents_same
      (m := { w.machine with stack := [], eventsQueue := w.machine.eventsQueue.tail }) rfl T
    have hidle : triggering w.machine.stack = none := by simp [hstack]
    rw [noteBang_of_ne hne] at heq
    rw [heq]
    exact h.of_same (h.sane.step hm') hsame (htrig.trans hidle.symm)
  · have hresumes : resumesLoop w.machine .handlerReturns = false := by
      simp [resumesLoop, hstack]
    refine h.called hw' hresumes fun m hm => ?_
    obtain rfl := Except.ok.inj (hm'.symm.trans hm)
    obtain ⟨hsame, htrig⟩ := freeEventsFor_same node it
      { w.machine with stack := stack, eventsQueue := w.machine.eventsQueue.erase e }
    exact ⟨hsame, by rw [htrig, hstack, triggering_freeEventsFor]⟩

end Steps

/-- A step keeps `trigger_loop_events` on track, unless it invalidates its iterators. -/
theorem OnTrack.step {w w' : Looping V} {a : LoopAction V} (h : OnTrack w)
    (hkeeps : KeepsIterators w a) (hw' : w.step a = .ok w') : OnTrack w' := by
  cases a with
  | loopMe node => exact h.loopMe node hkeeps hw'
  | unloopMe node => exact h.unloopMe node hkeeps hw'
  | worker a =>
    cases a with
    | registerEvent when node forced parameter =>
      refine h.called hw' rfl fun m' hm' => ?_
      obtain rfl : w.machine.registerEvent when node forced parameter = m' := by
        simpa [Machine.step] using hm'
      rcases registerEvent_cases w.machine when node forced parameter with ⟨-, heq⟩ | ⟨o, -, heq⟩
      all_goals rw [heq]; exact ⟨rfl, rfl⟩
    | freeEventsFor node =>
      refine h.called hw' rfl fun m' hm' => ?_
      obtain rfl := Except.ok.inj hm'
      exact freeEventsFor_same node _ w.machine
    | registerLoopedNode node => cases hw'
    | freeLoopedNode node => cases hw'
    | shouldRun value =>
      refine h.called hw' rfl fun m' hm' => ?_
      obtain rfl := Except.ok.inj hm'
      exact ⟨rfl, rfl⟩
    | loop elapsed => exact h.loop elapsed hw'
    | handlerReturns => exact h.handlerReturns hw'

/-! ## Whole runs -/

omit [DecidableEq V] in
theorem onTrack_init {m₀ : Machine V} {looped : NodeId → Bool} (h : Start m₀)
    (hcons : Consistent (init m₀ looped)) : OnTrack (init m₀ looped) where
  sane := h.sane
  consistent := hcons
  nodup := List.nodup_nil
  inside := by simp [init, h.stack]
  outside := fun _ => rfl

/-- Whatever else handlers do: as long as they keep the iterators of `trigger_loop_events`
valid, every loop bangs its nodes right. -/
theorem trigger_loop_events_right {m₀ : Machine V} {looped : NodeId → Bool} (h : Start m₀)
    (hcons : Consistent (init m₀ looped)) (acts : List (LoopAction V))
    (hkeeps : Lib.EveryStep (Lib.StepOf step) (init m₀ looped) acts KeepsIterators) :
    Lib.Throughout (Lib.StepOf step) (init m₀ looped) acts BangedRight := by
  have hon := hkeeps.throughout (P := OnTrack) (fun t a u ht hq hstep => ht.step hq hstep)
    (onTrack_init h hcons)
  exact fun bs t hle hrun => (hon bs t hle hrun).bangedRight

/-- Nodes 0 and 1 are looped. -/
def twoLooped : Looping Unit :=
  init { Machine.init true with loopedNodes := ⟨0, [0, 1]⟩ } fun node => decide (node < 2)

theorem twoLooped_consistent : Consistent twoLooped where
  flags := fun node => by
    change decide (node < 2) = true ↔ node ∈ [0, 1]
    have htwo : ∀ n : Nat, n < 2 ↔ n = 0 ∨ n = 1 := by omega
    simpa using htwo node
  nodup := by decide

/-- The first handler registers a node that is looped, the second one unregisters the first
node.  Another node is registered when the loop is over. -/
def firstLeaves : List (LoopAction Unit) :=
  [.worker (.loop 0), .loopMe 1, .worker .handlerReturns, .unloopMe 0,
    .worker .handlerReturns, .loopMe 2]

theorem trigger_loop_events_right_firstLeaves :
    Lib.Throughout (Lib.StepOf step) twoLooped firstLeaves BangedRight := by
  refine trigger_loop_events_right ⟨rfl, rfl, by decide, by decide⟩ twoLooped_consistent
    firstLeaves ?_
  refine .cons rfl trivial (.cons rfl ?_ (.cons rfl trivial (.cons rfl ?_
    (.cons rfl trivial (.cons rfl ?_ .nil)))))
  · intro hflag
    cases hflag
  · intro _ it endIt htrig
    have hlast : some (1, 2) = some (it, endIt) := htrig
    obtain ⟨rfl, rfl⟩ := Prod.mk.inj (Option.some.inj hlast)
    exact ⟨rfl, by decide⟩
  · intro _
    rfl

/-- The first handler unregisters the last node.  The loop goes on to where that node was,
which is outside of the deque, with an end iterator that is not valid. -/
theorem last_leaves_outOfBounds : ∃ w,
    Lib.Run (Lib.StepOf step) twoLooped [.worker (.loop 0), .unloopMe 1] w ∧
      w.machine.loopedNodes = ⟨0, [0]⟩ ∧ w.machine.step .handlerReturns = .error .outOfBounds ∧
      ¬ BangedRight w := by
  refine ⟨_, Lib.Run.of_foldlM rfl, rfl, rfl, fun h => h.validIterators ?_⟩
  rfl

end Looping

end Rubyk
