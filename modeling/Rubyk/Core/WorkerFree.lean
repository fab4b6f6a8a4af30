/-
  Core/WorkerFree.lean --- one call of `free_events_for`, from its start to its
  return, with handlers of forced events that register events.

  THE WALK.  The loop has passed a front of the queue, stands at a forced event of
  the node, and has the back still to come.  A handler adds events; the comparison
  of the queue puts an event in front of the one that runs exactly when it is
  earlier.  What lands behind is met by the walk, what lands in front is not.
-/
import Rubyk.Core.WorkerCancel

set_option autoImplicit false

namespace Rubyk

namespace OrderedList

variable {α : Type*} {ge : α → α → Bool} {x e : α} {front back : List α}

/-- An element the new one is not `>=` to shields what is behind it. -/
theorem insertContainer_before (h : ge x e = false) :
    insertContainer ge x (front ++ e :: back) = insertContainer ge x front ++ e :: back := by
  induction front with
  | nil => simp [insertContainer, h]
  | cons y ys ih =>
    simp only [List.cons_append, insertContainer]
    split
    · simp [ih]
    · rfl

end OrderedList

namespace Machine

variable {V : Type} [DecidableEq V] {m m' : Machine V} {node : NodeId}

/-! ## The queue of a worker -/

omit [DecidableEq V] in
/-- What `OrderedList` and `new` make sure of. -/
structure QueueOk (m : Machine V) : Prop where
  nodup : m.eventsQueue.Nodup
  ids : ∀ e ∈ m.eventsQueue, e.id < m.nextId
  ascending : m.eventsQueue.Pairwise fun d e => d.when ≤ e.when

omit [DecidableEq V] in
/-- Taking events out. -/
theorem QueueOk.sublist (h : QueueOk m) (hsub : m'.eventsQueue.Sublist m.eventsQueue)
    (hnext : m'.nextId = m.nextId) : QueueOk m' where
  nodup := h.nodup.sublist hsub
  ids := fun e he => hnext ▸ h.ids e (hsub.subset he)
  ascending := h.ascending.sublist hsub

omit [DecidableEq V] in
theorem QueueOk.newEvent_not_mem (h : QueueOk m) (when : Int) (node : NodeId) (forced : Bool)
    (parameter : V) : newEvent m when node forced parameter ∉ m.eventsQueue := by
  intro hmem
  exact absurd (h.ids _ hmem) (by simp)

/-- `register_event` puts an accepted event where it belongs. -/
theorem QueueOk.registerEvent (h : QueueOk m) (when : Int) (node : NodeId) (forced : Bool)
    (parameter : V) : QueueOk (m.registerEvent when node forced parameter) := by
  rcases registerEvent_cases m when node forced parameter with ⟨-, heq⟩ | ⟨o, -, heq⟩
  · rw [heq]
    refine ⟨OrderedList.push_nodup h.nodup, fun e he => ?_, ?_⟩
    · rcases OrderedList.mem_push.mp he with rfl | he
      · simp
      · exact (h.ids e he).trans (Nat.lt_succ_self _)
    · change (OrderedList.push Event.ge _ m.eventsQueue).Pairwise _
      rw [OrderedList.push_of_not_mem (h.newEvent_not_mem when node forced parameter)]
      refine OrderedList.insertContainer_pairwise (fun d _ hge => Event.ge_eq_true.mp hge) ?_
        h.ascending
      intro d _ hge
      have hlt := Event.ge_eq_false.mp hge
      exact ⟨hlt.le, fun e _ hle => hlt.le.trans hle⟩
  · rw [heq]
    exact ⟨h.nodup, fun e he => (h.ids e he).trans (Nat.lt_succ_self _), h.ascending⟩

/-! ## The walk -/

/-- The events of other nodes. -/
def ofOthers (node : NodeId) (queue : List (Event V)) : List (Event V) :=
  queue.filter fun e => decide (e.node ≠ node)

/-- What the walk notes about events of the node that are not forced. -/
def freedOf (node : NodeId) (queue : List (Event V)) : List (Obs V) :=
  (queue.filter fun e => decide (e.node = node)).map .freed

/-- The walk over the events `it` stops at the first forced event of the node, or
returns; on its way it takes the other events of the node out of the queue. -/
theorem freeEventsFor_walk {it : List (Event V)} : ∀ (m : Machine V) (front : List (Event V)),
    m.eventsQueue = front ++ it → m.eventsQueue.Nodup →
    (∃ skip e back, it = skip ++ e :: back ∧
      (∀ d ∈ skip, d.node = node → d.forced = false) ∧ e.node = node ∧ e.forced = true ∧
      freeEventsFor node it m =
        { m with
          stack := .freeEventsFor node e :: m.stack
          eventsQueue := front ++ ofOthers node skip ++ e :: back
          log := m.log ++ freedOf node skip ++ [.freed e, .forced e] }) ∨
    ((∀ d ∈ it, d.node = node → d.forced = false) ∧
      freeEventsFor node it m =
        { m with
          eventsQueue := front ++ ofOthers node it
          log := m.log ++ freedOf node it }) := by
  induction it with
  | nil =>
    intro m front hq _
    refine Or.inr ⟨by simp, ?_⟩
    rw [List.append_nil] at hq
    simp [freeEventsFor, ofOthers, freedOf, ← hq]
  | cons e next ih =>
    intro m front hq hnodup
    by_cases hnode : e.node = node
    · cases hforced : e.forced with
      | true =>
        refine Or.inl ⟨[], e, next, rfl, by simp, hnode, hforced, ?_⟩
        simp [freeEventsFor, Event.usesReceiver, hnode, hforced, ofOthers, freedOf, ← hq]
      | false =>
        have hfront : e ∉ front := by
          intro hmem
          rw [hq] at hnodup
          exact (List.nodup_append.mp hnodup).2.2 e hmem e List.mem_cons_self rfl
        have herase : m.eventsQueue.erase e = front ++ next := by
          rw [hq, List.erase_append_right _ hfront, List.erase_cons_head]
        have hunfold : freeEventsFor node (e :: next) m = freeEventsFor node next
            { m with eventsQueue := front ++ next, log := m.log ++ [.freed e] } := by
          simp [freeEventsFor, Event.usesReceiver, hnode, hforced, herase]
        rw [hunfold]
        have hnodup' : (front ++ next).Nodup := herase ▸ hnodup.erase e
        rcases ih { m with eventsQueue := front ++ next, log := m.log ++ [.freed e] } front
          rfl hnodup' with ⟨skip, d, back, rfl, hskip, hd, hdf, hwalk⟩ | ⟨hall, hwalk⟩
        · refine Or.inl ⟨e :: skip, d, back, rfl, ?_, hd, hdf, ?_⟩
          · rintro c hc hcn
            rcases List.mem_cons.mp hc with rfl | hc
            · exact hforced
            · exact hskip c hc hcn
          · rw [hwalk]
            simp [ofOthers, freedOf, hnode]
        · refine Or.inr ⟨?_, ?_⟩
          · rintro c hc hcn
            rcases List.mem_cons.mp hc with rfl | hc
            · exact hforced
            · exact hall c hc hcn
          · rw [hwalk]
            simp [ofOthers, freedOf, hnode]
    · have hunfold : freeEventsFor node (e :: next) m = freeEventsFor node next m := by
        simp [freeEventsFor, Event.usesReceiver, hnode]
      rw [hunfold]
      rcases ih m (front ++ [e]) (by simp [hq]) hnodup with
        ⟨skip, d, back, rfl, hskip, hd, hdf, hwalk⟩ | ⟨hall, hwalk⟩
      · refine Or.inl ⟨e :: skip, d, back, rfl, ?_, hd, hdf, ?_⟩
        · rintro c hc hcn
          rcases List.mem_cons.mp hc with rfl | hc
          · exact absurd hcn hnode
          · exact hskip c hc hcn
        · rw [hwalk]
          simp [ofOthers, freedOf, hnode]
      · refine Or.inr ⟨?_, ?_⟩
        · rintro c hc hcn
          rcases List.mem_cons.mp hc with rfl | hc
          · exact absurd hcn hnode
          · exact hall c hc hcn
        · rw [hwalk]
          simp [ofOthers, freedOf, hnode]

/-! ## One call -/

/-- A step of a call of `free_events_for` made with `stack` below it: the handler of
the forced event registers an event, or returns. -/
def CallStep (node : NodeId) (stack : List (Frame V)) (m : Machine V) (a : Action V)
    (m' : Machine V) : Prop :=
  (∃ e, m.stack = .freeEventsFor node e :: stack) ∧
    (a = .handlerReturns ∨ ∃ when n forced parameter, a = .registerEvent when n forced parameter) ∧
    m.step a = .ok m'

/-- What the call should have done when it has returned. -/
structure FreedRight (node : NodeId) (m₀ m : Machine V) : Prop where
  gone : ∀ e ∈ m.eventsQueue, e.node ≠ node
  forcedOnce : ∀ e ∈ m₀.eventsQueue, e.node = node → e.forced = true →
    m.log.count (.forced e) = m₀.log.count (.forced e) + 1
  others : (ofOthers node m₀.eventsQueue).Sublist m.eventsQueue

/-- An event the handler registers for the node is not earlier than the forced event
that runs. -/
def LandsBehind (node : NodeId) (m : Machine V) : Action V → Prop
  | .registerEvent when n forced _ => n = node → Accepts m when forced →
      ∀ e stack, m.stack = .freeEventsFor node e :: stack → e.when ≤ when
  | _ => True

/-- The part of the queue the call has passed: all of it when the call has returned. -/
def passed (stack : List (Frame V)) (m : Machine V) : List (Event V) :=
  match m.stack with
  | .freeEventsFor _ e :: rest =>
      if rest = stack then m.eventsQueue.takeWhile fun d => decide (d ≠ e) else m.eventsQueue
  | _ => m.eventsQueue

/-- Nothing of the node is left in the part the call has passed. -/
def Clean (node : NodeId) (stack : List (Frame V)) (m : Machine V) : Prop :=
  ∀ e ∈ passed stack m, e.node ≠ node

/-- A call that was made in `m₀`, with the events `back` still to come. -/
structure Calling (node : NodeId) (m₀ : Machine V) (back : List (Event V)) (m : Machine V) :
    Prop where
  ok : QueueOk m
  old : ∀ e ∈ m₀.eventsQueue, e.id < m.nextId
  place : (m.stack = m₀.stack ∧ back = []) ∨ ∃ e front,
    m.stack = .freeEventsFor node e :: m₀.stack ∧ e.node = node ∧
      m.eventsQueue = front ++ e :: back
  others : (ofOthers node m₀.eventsQueue).Sublist (ofOthers node m.eventsQueue)
  counted : ∀ e ∈ m₀.eventsQueue, e.node = node → e.forced = true →
    m.log.count (.forced e) = m₀.log.count (.forced e) + if e ∈ back then 0 else 1

theorem passed_returned {stack : List (Frame V)} (h : m.stack = stack) :
    passed stack m = m.eventsQueue := by
  unfold passed
  split
  · rename_i node e rest heq
    rw [if_neg]
    rintro rfl
    rw [h] at heq
    exact absurd (congrArg List.length heq) (by simp)
  · rfl

theorem passed_calling {stack : List (Frame V)} {e : Event V} {front back : List (Event V)}
    (hstack : m.stack = .freeEventsFor node e :: stack)
    (hqueue : m.eventsQueue = front ++ e :: back) (hnodup : m.eventsQueue.Nodup) :
    passed stack m = front := by
  have hfront : ∀ d ∈ front, decide (d ≠ e) = true := by
    intro d hd
    rw [hqueue] at hnodup
    have hne := (List.nodup_append.mp hnodup).2.2 d hd e List.mem_cons_self
    simpa using hne
  unfold passed
  rw [hstack]
  simp only [if_true, hqueue]
  rw [List.takeWhile_append_of_pos hfront]
  simp

omit [DecidableEq V] in
@[simp] theorem ofOthers_append (node : NodeId) (l l' : List (Event V)) :
    ofOthers node (l ++ l') = ofOthers node l ++ ofOthers node l' := by
  simp [ofOthers]

omit [DecidableEq V] in
@[simp] theorem ofOthers_ofOthers (node : NodeId) (l : List (Event V)) :
    ofOthers node (ofOthers node l) = ofOthers node l := by
  simp [ofOthers]

omit [DecidableEq V] in
theorem mem_ofOthers {e : Event V} {l : List (Event V)} :
    e ∈ ofOthers node l ↔ e ∈ l ∧ e.node ≠ node := by
  simp [ofOthers]

@[simp] theorem count_freedOf (node : NodeId) (l : List (Event V)) (e : Event V) :
    (freedOf node l).count (.forced e) = 0 := by
  rw [List.count_eq_zero]
  simp [freedOf]

/-- From the events `it` on, the walk keeps up the account of the call. -/
theorem Calling.walk {m₀ : Machine V} {front it : List (Event V)} (hok : QueueOk m)
    (hold : ∀ e ∈ m₀.eventsQueue, e.id < m.nextId) (hstack : m.stack = m₀.stack)
    (hqueue : m.eventsQueue = front ++ it)
    (hothers : (ofOthers node m₀.eventsQueue).Sublist (ofOthers node m.eventsQueue))
    (hcounted : ∀ e ∈ m₀.eventsQueue, e.node = node → e.forced = true →
      m.log.count (.forced e) = m₀.log.count (.forced e) + if e ∈ it then 0 else 1) :
    ∃ back, Calling node m₀ back (freeEventsFor node it m) ∧
      (Clean node m₀.stack (freeEventsFor node it m) ↔ ∀ e ∈ front, e.node ≠ node) := by
  have hskipOthers : ∀ (l : List (Event V)), ∀ e ∈ ofOthers node l, e.node ≠ node :=
    fun l e he => (mem_ofOthers.mp he).2
  rcases freeEventsFor_walk m front hqueue hok.nodup with
    ⟨skip, e, back, rfl, hskip, hnode, hforced, heq⟩ | ⟨hall, heq⟩
  · have hsub : (front ++ ofOthers node skip ++ e :: back).Sublist m.eventsQueue := by
      rw [hqueue, List.append_assoc]
      exact ((List.filter_sublist).append_right _).append_left front
    rw [heq]
    have hok' : QueueOk { m with
        stack := .freeEventsFor node e :: m.stack
        eventsQueue := front ++ ofOthers node skip ++ e :: back
        log := m.log ++ freedOf node skip ++ [.freed e, .forced e] } := hok.sublist hsub rfl
    have hstack' : Frame.freeEventsFor node e :: m.stack = .freeEventsFor node e :: m₀.stack :=
      congrArg _ hstack
    refine ⟨back, ⟨hok', hold, Or.inr ⟨e, front ++ ofOthers node skip, hstack', hnode, rfl⟩,
      ?_, ?_⟩, ?_⟩
    · have hsame : ofOthers node m.eventsQueue =
          ofOthers node (front ++ ofOthers node skip ++ e :: back) := by
        rw [hqueue]
        simp
      exact hsame ▸ hothers
    · intro d hd hdnode hdforced
      have hcount := hcounted d hd hdnode hdforced
      have hnotskip : d ∉ skip := by
        intro hmem
        rw [hskip d hmem hdnode] at hdforced
        cases hdforced
      have hnodup := (List.nodup_append.mp (hqueue ▸ hok.nodup)).2.1
      have hback : e ∉ back := (List.nodup_cons.mp (List.nodup_append.mp hnodup).2.1).1
      simp only [List.count_append, count_freedOf, Nat.add_zero, List.count_cons, List.count_nil]
      by_cases hde : d = e
      · subst hde
        simp [hcount, hback]
      · have hed : ¬ e = d := fun h => hde h.symm
        simp [hcount, hnotskip, hde, hed]
    · unfold Clean
      rw [passed_calling hstack' rfl hok'.nodup]
      constructor
      · exact fun h d hd => h d (List.mem_append_left _ hd)
      · intro h d hd
        rcases List.mem_append.mp hd with hd | hd
        · exact h d hd
        · exact hskipOthers skip d hd
  · rw [heq]
    have hsub : (front ++ ofOthers node it).Sublist m.eventsQueue := by
      rw [hqueue]
      exact List.filter_sublist.append_left front
    have hpassed : passed m₀.stack { m with
        eventsQueue := front ++ ofOthers node it
        log := m.log ++ freedOf node it } = front ++ ofOthers node it :=
      passed_returned hstack
    refine ⟨[], ⟨hok.sublist hsub rfl, hold, Or.inl ⟨hstack, rfl⟩, ?_, ?_⟩, ?_⟩
    · have hsame : ofOthers node m.eventsQueue =
          ofOthers node (front ++ ofOthers node it) := by
        rw [hqueue]
        simp
      exact hsame ▸ hothers
    · intro d hd hdnode hdforced
      have hnotit : d ∉ it := by
        intro hmem
        rw [hall d hmem hdnode] at hdforced
        cases hdforced
      simp [hcounted d hd hdnode hdforced, hnotit]
    · unfold Clean
      rw [hpassed]
      constructor
      · exact fun h d hd => h d (List.mem_append_left _ hd)
      · intro h d hd
        rcases List.mem_append.mp hd with hd | hd
        · exact h d hd
        · exact hskipOthers it d hd

/-- Where a call in progress stands. -/
theorem Calling.front {m₀ : Machine V} {back : List (Event V)} {e : Event V}
    (h : Calling node m₀ back m) (hstack : m.stack = .freeEventsFor node e :: m₀.stack) :
    e.node = node ∧ ∃ front, m.eventsQueue = front ++ e :: back := by
  rcases h.place with ⟨hret, -⟩ | ⟨d, front, hplace, hnode, hqueue⟩
  · rw [hstack] at hret
    exact absurd (congrArg List.length hret) (by simp)
  · rw [hstack] at hplace
    obtain ⟨-, rfl⟩ := Frame.freeEventsFor.inj (List.cons.inj hplace).1
    exact ⟨hnode, front, hqueue⟩

omit [DecidableEq V] in
/-- An event that is not earlier than `e` lands behind it. -/
theorem QueueOk.insert_behind {front back : List (Event V)} {d e : Event V} (hok : QueueOk m)
    (hqueue : m.eventsQueue = front ++ e :: back) (hle : e.when ≤ d.when) :
    OrderedList.insertContainer Event.ge d m.eventsQueue =
      front ++ e :: OrderedList.insertContainer Event.ge d back := by
  have hasc := hok.ascending
  rw [hqueue, List.append_cons] at hasc ⊢
  have hpassed : ∀ x ∈ front ++ [e], Event.ge d x = true := by
    intro x hx
    rw [Event.ge_eq_true]
    rcases List.mem_append.mp hx with hx | hx
    · have hmem := (List.pairwise_append.mp (List.pairwise_append.mp hasc).1).2.2 x hx e
        (List.mem_singleton_self e)
      exact hmem.trans hle
    · rwa [List.mem_singleton.mp hx]
  rw [OrderedList.insertContainer_append hpassed, List.append_assoc, List.singleton_append]

/-- What an event that is accepted leaves as it was for a call. -/
theorem Calling.accepted {m₀ : Machine V} {back : List (Event V)} (h : Calling node m₀ back m)
    {when : Int} {forced : Bool} (haccepts : Accepts m when forced) (n : NodeId) (parameter : V) :
    (m.registerEvent when n forced parameter).stack = m.stack ∧
      (m.registerEvent when n forced parameter).eventsQueue =
        OrderedList.insertContainer Event.ge (newEvent m when n forced parameter) m.eventsQueue ∧
      (∀ d ∈ m₀.eventsQueue, d.id < (m.registerEvent when n forced parameter).nextId) ∧
      (ofOthers node m₀.eventsQueue).Sublist
        (ofOthers node (m.registerEvent when n forced parameter).eventsQueue) ∧
      ∀ d, (m.registerEvent when n forced parameter).log.count (.forced d) =
        m.log.count (.forced d) := by
  have heq := registerEvent_accepts haccepts n parameter
  rw [OrderedList.push_of_not_mem (h.ok.newEvent_not_mem when n forced parameter)] at heq
  rw [heq]
  refine ⟨rfl, rfl, fun d hd => (h.old d hd).trans (Nat.lt_succ_self _), ?_, fun d => by simp⟩
  exact h.others.trans ((OrderedList.sublist_insertContainer _ _ _).filter _)

section Registers

variable {m₀ : Machine V} {back front : List (Event V)} {e : Event V} {when : Int} {n : NodeId}
  {forced : Bool} {parameter : V}

/-- The event that the handler registers lands behind the one that runs. -/
theorem Calling.registerEvent_behind (h : Calling node m₀ back m)
    (hstack : m.stack = .freeEventsFor node e :: m₀.stack) (hnode : e.node = node)
    (hqueue : m.eventsQueue = front ++ e :: back) (haccepts : Accepts m when forced)
    (hle : e.when ≤ when) :
    Calling node m₀
        (OrderedList.insertContainer Event.ge (newEvent m when n forced parameter) back)
        (m.registerEvent when n forced parameter) ∧
      (Clean node m₀.stack (m.registerEvent when n forced parameter) ↔ Clean node m₀.stack m ∧
        LandsBehind node m (.registerEvent when n forced parameter)) := by
  obtain ⟨hstack', hqueue', hold, hothers, hcount⟩ := h.accepted haccepts n parameter
  rw [h.ok.insert_behind hqueue (by rw [newEvent_when]; exact hle)] at hqueue'
  rw [hstack] at hstack'
  have hok' := h.ok.registerEvent when n forced parameter
  refine ⟨⟨hok', hold, Or.inr ⟨e, front, hstack', hnode, hqueue'⟩, hothers, ?_⟩, ?_⟩
  · intro d hd hdnode hforced
    have hne : d ≠ newEvent m when n forced parameter := by
      rintro rfl
      exact absurd (h.old _ hd) (by simp)
    rw [hcount, h.counted d hd hdnode hforced]
    simp [hne]
  · unfold Clean
    rw [passed_calling hstack' hqueue' hok'.nodup, passed_calling hstack hqueue h.ok.nodup]
    refine ⟨fun hfront => ⟨hfront, fun _ _ d stack hd => ?_⟩, And.left⟩
    rw [hstack] at hd
    obtain ⟨-, rfl⟩ := Frame.freeEventsFor.inj (List.cons.inj hd).1
    exact hle

/-- It lands in front of the one that runs. -/
theorem Calling.registerEvent_in_front (h : Calling node m₀ back m)
    (hstack : m.stack = .freeEventsFor node e :: m₀.stack) (hnode : e.node = node)
    (hqueue : m.eventsQueue = front ++ e :: back) (haccepts : Accepts m when forced)
    (hlt : ¬ e.when ≤ when) :
    Calling node m₀ back (m.registerEvent when n forced parameter) ∧
      (Clean node m₀.stack (m.registerEvent when n forced parameter) ↔ Clean node m₀.stack m ∧
        LandsBehind node m (.registerEvent when n forced parameter)) := by
  obtain ⟨hstack', hqueue', hold, hothers, hcount⟩ := h.accepted haccepts n parameter
  have hge : Event.ge (newEvent m when n forced parameter) e = false := by
    rw [Event.ge_eq_false, newEvent_when]
    omega
  rw [hqueue, OrderedList.insertContainer_before hge] at hqueue'
  rw [hstack] at hstack'
  have hok' := h.ok.registerEvent when n forced parameter
  refine ⟨⟨hok', hold, Or.inr ⟨e, _, hstack', hnode, hqueue'⟩, hothers, ?_⟩, ?_⟩
  · intro d hd hdnode hforced
    rw [hcount, h.counted d hd hdnode hforced]
  · unfold Clean
    rw [passed_calling hstack' hqueue' hok'.nodup, passed_calling hstack hqueue h.ok.nodup]
    simp only [OrderedList.mem_insertContainer, LandsBehind]
    constructor
    · intro hall
      refine ⟨fun d hd => hall d (Or.inr hd), fun hn => ?_⟩
      exact absurd hn (hall _ (Or.inl rfl))
    · rintro ⟨hfront, hlands⟩ d (rfl | hd)
      · exact fun hn => hlt (hlands hn haccepts e m₀.stack hstack)
      · exact hfront d hd

/-- It is not accepted. -/
theorem Calling.registerEvent_rejected (h : Calling node m₀ back m)
    (hstack : m.stack = .freeEventsFor node e :: m₀.stack) (hnode : e.node = node)
    (hqueue : m.eventsQueue = front ++ e :: back) (haccepts : ¬ Accepts m when forced) :
    Calling node m₀ back (m.registerEvent when n forced parameter) ∧
      (Clean node m₀.stack (m.registerEvent when n forced parameter) ↔ Clean node m₀.stack m ∧
        LandsBehind node m (.registerEvent when n forced parameter)) := by
  obtain ⟨o, ho, heq⟩ := registerEvent_rejects haccepts n parameter
  have hok' := h.ok.registerEvent when n forced parameter
  have hcount : ∀ d, (m.log ++ [o]).count (.forced d) = m.log.count (.forced d) := by
    rcases ho with rfl | rfl <;> simp
  have hstack' : (m.registerEvent when n forced parameter).stack =
      .freeEventsFor node e :: m₀.stack := by rw [heq]; exact hstack
  have hqueue' : (m.registerEvent when n forced parameter).eventsQueue =
      front ++ e :: back := by rw [heq]; exact hqueue
  refine ⟨⟨hok', ?_, Or.inr ⟨e, front, hstack', hnode, hqueue'⟩, ?_, ?_⟩, ?_⟩
  · rw [heq]
    exact fun d hd => (h.old d hd).trans (Nat.lt_succ_self _)
  · rw [heq]
    exact h.others
  · intro d hd hdnode hforced
    rw [heq]
    exact (hcount d).trans (h.counted d hd hdnode hforced)
  · unfold Clean
    rw [passed_calling hstack' hqueue' hok'.nodup, passed_calling hstack hqueue h.ok.nodup]
    exact ⟨fun hfront => ⟨hfront, fun _ hacc => absurd hacc haccepts⟩, And.left⟩

end Registers

/-- What the handler registers. -/
theorem Calling.registerEvent {m₀ : Machine V} {back : List (Event V)} {e : Event V}
    (h : Calling node m₀ back m) (hstack : m.stack = .freeEventsFor node e :: m₀.stack)
    (when : Int) (n : NodeId) (forced : Bool) (parameter : V) :
    ∃ back', Calling node m₀ back' (m.registerEvent when n forced parameter) ∧
      (Clean node m₀.stack (m.registerEvent when n forced parameter) ↔
        Clean node m₀.stack m ∧ LandsBehind node m (.registerEvent when n forced parameter)) := by
  obtain ⟨hnode, front, hqueue⟩ := h.front hstack
  by_cases haccepts : Accepts m when forced
  · by_cases hle : e.when ≤ when
    · exact ⟨_, h.registerEvent_behind hstack hnode hqueue haccepts hle⟩
    · exact ⟨back, h.registerEvent_in_front hstack hnode hqueue haccepts hle⟩
  · exact ⟨back, h.registerEvent_rejected hstack hnode hqueue haccepts⟩

/-- The handler returns, and the walk goes on behind its event. -/
theorem Calling.handlerReturns {m₀ : Machine V} {back : List (Event V)} {e : Event V}
    (h : Calling node m₀ back m) (hstack : m.stack = .freeEventsFor node e :: m₀.stack)
    (hm' : m.handlerReturns = .ok m') :
    ∃ back', Calling node m₀ back' m' ∧
      (Clean node m₀.stack m' ↔
        Clean node m₀.stack m ∧ LandsBehind node m .handlerReturns) := by
  obtain ⟨hnode, front, hqueue⟩ := h.front hstack
  have hfront : e ∉ front := by
    intro hmem
    have hnodup := h.ok.nodup
    rw [hqueue] at hnodup
    exact (List.nodup_append.mp hnodup).2.2 e hmem e List.mem_cons_self rfl
  have hremove : OrderedList.remove e m.eventsQueue = (some back, front ++ back) := by
    rw [hqueue]
    exact OrderedList.remove_append_cons hfront
  have hreturn : m.handlerReturns = .ok (freeEventsFor node back
      { m with stack := m₀.stack, eventsQueue := front ++ back }) := by
    simp [Machine.handlerReturns, hstack, hremove]
  obtain rfl := Except.ok.inj (hreturn.symm.trans hm')
  have hsub : (front ++ back).Sublist m.eventsQueue := by
    rw [hqueue]
    exact (List.sublist_cons_self e back).append_left front
  have hsame : ofOthers node m.eventsQueue = ofOthers node (front ++ back) := by
    rw [hqueue]
    simp [ofOthers, hnode]
  have hcounted : ∀ d ∈ m₀.eventsQueue, d.node = node → d.forced = true →
      m.log.count (.forced d) = m₀.log.count (.forced d) + if d ∈ back then 0 else 1 :=
    h.counted
  obtain ⟨back', hcalling, hclean⟩ := Calling.walk
    (m := { m with stack := m₀.stack, eventsQueue := front ++ back })
    (h.ok.sublist hsub rfl) h.old rfl rfl (hsame ▸ h.others) hcounted
  refine ⟨back', hcalling, ?_⟩
  rw [hclean]
  unfold Clean
  rw [passed_calling hstack hqueue h.ok.nodup]
  simp [LandsBehind]

/-- One step of the call keeps up its account, and the part it has passed stays clean
exactly when the step registers nothing in front of the event that runs. -/
theorem Calling.step {m₀ : Machine V} {back : List (Event V)} {a : Action V}
    (h : Calling node m₀ back m) (hstep : CallStep node m₀.stack m a m') :
    ∃ back', Calling node m₀ back' m' ∧
      (Clean node m₀.stack m' ↔ Clean node m₀.stack m ∧ LandsBehind node m a) := by
  obtain ⟨⟨e, hstack⟩, rfl | ⟨when, n, forced, parameter, rfl⟩, hm'⟩ := hstep
  · exact h.handlerReturns hstack hm'
  · obtain rfl : m.registerEvent when n forced parameter = m' := by simpa [Machine.step] using hm'
    exact h.registerEvent hstack when n forced parameter

/-- Whatever the handlers register, a call leaves the events of other nodes in their
order and triggers each forced event once; it leaves no event of the node exactly when
no handler registers one for it in front of the event that runs. -/
theorem free_events_for_iff {m₀ : Machine V} {acts : List (Action V)} (hok : QueueOk m₀)
    (hrun : Lib.Run (CallStep node m₀.stack) (freeEventsFor node m₀.eventsQueue m₀) acts m)
    (hreturned : m.stack = m₀.stack) :
    FreedRight node m₀ m ↔
      Lib.EveryStep (CallStep node m₀.stack) (freeEventsFor node m₀.eventsQueue m₀) acts
        (LandsBehind node) := by
  obtain ⟨back₀, hstart, hclean₀⟩ : ∃ back,
      Calling node m₀ back (freeEventsFor node m₀.eventsQueue m₀) ∧
      (Clean node m₀.stack (freeEventsFor node m₀.eventsQueue m₀) ↔
        ∀ e ∈ ([] : List (Event V)), e.node ≠ node) :=
    Calling.walk hok hok.ids rfl rfl (List.Sublist.refl _) fun e he _ _ => by simp [he]
  have hinv : ∀ (t : Machine V) a u, (∃ back, Calling node m₀ back t) →
      CallStep node m₀.stack t a u → ∃ back, Calling node m₀ back u := by
    rintro t a u ⟨back, ht⟩ hstep
    obtain ⟨back', hu, -⟩ := ht.step hstep
    exact ⟨back', hu⟩
  have hkey := Lib.Run.holds_iff (P := Clean node m₀.stack) (Q := LandsBehind node)
    (fun t a u v hu hv => by
      have hok := hu.2.2.symm.trans hv.2.2
      exact Except.ok.inj hok)
    hinv (fun t a u ht hstep => by
      obtain ⟨back, ht⟩ := ht
      obtain ⟨back', -, hiff⟩ := ht.step hstep
      exact hiff)
    ⟨back₀, hstart⟩ (hclean₀.mpr (by simp)) hrun
  rw [← hkey]
  obtain ⟨back, hend⟩ := hrun.invariant (fun t => ∃ back, Calling node m₀ back t) hinv
    ⟨back₀, hstart⟩
  have hback : back = [] := by
    rcases hend.place with ⟨-, hback⟩ | ⟨e, front, hstack, -, -⟩
    · exact hback
    · rw [hreturned] at hstack
      exact absurd (congrArg List.length hstack) (by simp)
  unfold Clean
  rw [passed_returned hreturned]
  constructor
  · exact fun h => h.gone
  · intro hgone
    refine ⟨hgone, fun e he hnode hforced => ?_, ?_⟩
    · simpa [hback] using hend.counted e he hnode hforced
    · exact hend.others.trans List.filter_sublist

/-- A worker at time 0 with a forced event of node 0 at time 10. -/
def oneForced : Machine Unit :=
  { init true with eventsQueue := [⟨0, 10, 0, true, ()⟩], nextId := 1 }

/-- The handler registers an event that lands behind, and the walk takes it away. -/
theorem free_events_for_behind : ∃ m : Machine Unit,
    (m.stack = [] ∧ m.eventsQueue = []) ∧
    (FreedRight 0 oneForced m ↔
      Lib.EveryStep (CallStep 0 []) (freeEventsFor 0 oneForced.eventsQueue oneForced)
        [.registerEvent 10 0 false (), .handlerReturns] (LandsBehind 0)) := by
  have hok : QueueOk oneForced :=
    ⟨by decide, by decide, List.pairwise_singleton _ _⟩
  have hrun : Lib.Run (CallStep 0 []) (freeEventsFor 0 oneForced.eventsQueue oneForced)
      [.registerEvent 10 0 false (), .handlerReturns] _ :=
    Lib.Run.cons ⟨⟨_, rfl⟩, Or.inr ⟨10, 0, false, (), rfl⟩, rfl⟩
      (Lib.Run.one ⟨⟨_, rfl⟩, Or.inl rfl, rfl⟩)
  exact ⟨_, ⟨by decide, by decide⟩, free_events_for_iff hok hrun rfl⟩

/-- The handler registers an event that lands in front, and the event stays. -/
theorem event_left_in_front : ∃ m : Machine Unit,
    Lib.Run (CallStep 0 []) (freeEventsFor 0 oneForced.eventsQueue oneForced)
      [.registerEvent 5 0 false (), .handlerReturns] m ∧
    m.stack = [] ∧ m.eventsQueue = [⟨1, 5, 0, false, ()⟩] ∧ ¬ FreedRight 0 oneForced m := by
  refine ⟨_, Lib.Run.cons ⟨⟨_, rfl⟩, Or.inr ⟨5, 0, false, (), rfl⟩, rfl⟩
    (Lib.Run.one ⟨⟨_, rfl⟩, Or.inl rfl, rfl⟩), by decide, by decide, ?_⟩
  intro h
  exact absurd rfl (h.gone ⟨1, 5, 0, false, ()⟩ (by decide))

end Machine

end Rubyk
