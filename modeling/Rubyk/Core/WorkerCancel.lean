/-
  Core/WorkerCancel.lean --- what `pop_events` takes out of the queue when
  handlers cancel events.

  `free_events_for` may be called by any handler, for any node, also for the node
  whose event `pop_events` is running.  The running event stays in the queue while
  its handler runs, and `pop_events` ends a round with `events_queue_.pop()`, which
  unlinks the head, whatever it is.

  THE INVARIANT.  As long as the running event is in the queue it is at the head:
  a handler can only add later events and remove others.  So `pop()` removes the
  event that ran, unless the handler cancelled it; then `pop()` removes the event
  of somebody else (`accounted_pop`).
-/
import Rubyk.Core.WorkerSteps

set_option autoImplicit false

namespace Rubyk.Machine

variable {V : Type}

/-! ## What is accounted for -/

/-- The events whose handlers `pop_events` is running. -/
def running (stack : List (Frame V)) : List (Event V) :=
  stack.filterMap fun
    | .popEvents _ e => some e
    | _ => none

@[simp] theorem running_nil : running ([] : List (Frame V)) = [] := rfl
@[simp] theorem running_popEvents (T : Int) (e : Event V) (stack : List (Frame V)) :
    running (.popEvents T e :: stack) = e :: running stack := rfl
@[simp] theorem running_freeEventsFor (node : NodeId) (e : Event V)
    (stack : List (Frame V)) : running (.freeEventsFor node e :: stack) = running stack := rfl
@[simp] theorem running_triggerLoopEvents (it endIt : Nat) (stack : List (Frame V)) :
    running (.triggerLoopEvents it endIt :: stack) = running stack := rfl

theorem mem_running {stack : List (Frame V)} {e : Event V} :
    e ∈ running stack ↔ ∃ T, .popEvents T e ∈ stack := by
  induction stack with
  | nil => simp
  | cons f fs ih =>
    cases f with
    | popEvents T d =>
      simp only [running_popEvents, List.mem_cons, ih, Frame.popEvents.injEq]
      constructor
      · rintro (rfl | ⟨T', h⟩)
        · exact ⟨T, Or.inl ⟨rfl, rfl⟩⟩
        · exact ⟨T', Or.inr h⟩
      · rintro ⟨T', ⟨-, rfl⟩ | h⟩
        · exact Or.inl rfl
        · exact Or.inr ⟨T', h⟩
    | _ => simp [ih]

/-- The event is queued and its handler has not started. -/
def Waiting (m : Machine V) (e : Event V) : Prop :=
  e ∈ m.eventsQueue ∧ e ∉ running m.stack

variable [DecidableEq V]

instance (m : Machine V) (e : Event V) : Decidable (Waiting m e) :=
  inferInstanceAs (Decidable (_ ∧ _))

/-- The event waits in the queue, or has been triggered, exactly once. -/
def AccountedFor (m : Machine V) (e : Event V) : Prop :=
  (Waiting m e ∧ (triggered m.log).count e = 0) ∨
    (¬ Waiting m e ∧ (triggered m.log).count e = 1)

instance (m : Machine V) (e : Event V) : Decidable (AccountedFor m e) :=
  inferInstanceAs (Decidable (_ ∨ _))

/-- Nobody's event is lost: every accepted event that was not explicitly cancelled
is accounted for. -/
def Accounted (m : Machine V) : Prop :=
  ∀ e ∈ accepted m.log, e ∉ freed m.log → AccountedFor m e

instance (m : Machine V) : Decidable (Accounted m) :=
  inferInstanceAs (Decidable (∀ e ∈ accepted m.log, _))

/-- When a handler run by `pop_events` returns, its event is still queued, or
nothing is: the handler did not cancel the running event and leave others. -/
def PopsItsOwn (m : Machine V) (a : Action V) : Prop :=
  a = .handlerReturns → ∀ T e stack, m.stack = .popEvents T e :: stack →
    m.eventsQueue = [] ∨ e ∈ m.eventsQueue

omit [DecidableEq V] in
/-- A step that is not the return of a handler run by `pop_events`. -/
theorem popsItsOwn_of_ne {m : Machine V} {a : Action V}
    (h : ∀ T e stack, a = .handlerReturns → m.stack ≠ .popEvents T e :: stack) :
    PopsItsOwn m a :=
  fun ha T e stack hstack => absurd hstack (h T e stack ha)

/-- A worker outside of `loop()` with any queue. -/
structure Start (m : Machine V) : Prop where
  stack : m.stack = []
  log : m.log = m.eventsQueue.map .accepted
  nodup : m.eventsQueue.Nodup
  ids : ∀ e ∈ m.eventsQueue, e.id < m.nextId

/-! ## The invariant of all runs -/

/-- What every run keeps, whatever the handlers do. -/
structure Sane (m : Machine V) : Prop where
  ids : ∀ e ∈ accepted m.log, e.id < m.nextId
  nodup : m.eventsQueue.Nodup
  queued : ∀ e ∈ m.eventsQueue, e ∈ accepted m.log
  ran : ∀ e ∈ triggered m.log, e ∈ accepted m.log
  gone : ∀ e ∈ freed m.log, e ∈ accepted m.log
  /-- only `loop()` calls `pop_events` and `trigger_loop_events` -/
  bottom : ∀ f ∈ m.stack.dropLast, ∃ node e, f = .freeEventsFor node e
  /-- a cancelled event leaves the queue, at the latest when its handler returns -/
  cancelled : ∀ e ∈ m.eventsQueue, e ∈ freed m.log → ∃ node, .freeEventsFor node e ∈ m.stack
  cancelling : ∀ node e, .freeEventsFor node e ∈ m.stack → e ∈ freed m.log
  /-- the running event stays at the head until it is cancelled -/
  head : ∀ T e, .popEvents T e ∈ m.stack → m.currentTime = e.when ∧ e ∈ accepted m.log ∧
    (e ∈ m.eventsQueue → ∃ rest, m.eventsQueue = e :: rest)

section Start

omit [DecidableEq V]

variable {m : Machine V}

@[simp] theorem accepted_map (l : List (Event V)) : accepted (l.map .accepted) = l := by
  induction l with
  | nil => rfl
  | cons e es ih => simp [accepted, ih]

@[simp] theorem freed_map (l : List (Event V)) : freed (l.map .accepted) = [] := by
  induction l with
  | nil => rfl
  | cons e es ih => simp [freed, ih]

@[simp] theorem triggered_map (l : List (Event V)) : triggered (l.map .accepted) = [] := by
  induction l with
  | nil => rfl
  | cons e es ih => simp [triggered, ih]

theorem Start.sane (h : Start m) : Sane m where
  ids := by simpa [h.log] using h.ids
  nodup := h.nodup
  queued := by simp [h.log]
  ran := by rw [h.log, triggered_map]; simp
  gone := by rw [h.log, freed_map]; simp
  bottom := by simp [h.stack]
  cancelled := by rw [h.log, freed_map]; simp
  cancelling := by simp [h.stack]
  head := by simp [h.stack]

end Start

theorem Start.accounted {m : Machine V} (h : Start m) : Accounted m := by
  intro e he _
  rw [h.log, accepted_map] at he
  refine Or.inl ⟨⟨he, by simp [h.stack]⟩, ?_⟩
  rw [h.log, triggered_map, List.count_nil]

/-! ## One step -/

namespace Sane

variable {m m' : Machine V}

omit [DecidableEq V] in
/-- A fresh event is not in the history. -/
theorem newEvent_not_mem (h : Sane m) (when : Int) (node : NodeId) (forced : Bool)
    (parameter : V) : newEvent m when node forced parameter ∉ accepted m.log := by
  intro hmem
  exact absurd (h.ids _ hmem) (by simp)

omit [DecidableEq V] in
/-- The handler of a popped event was called by `loop()`. -/
theorem stack_eq_nil (h : Sane m) {f : Frame V} {stack : List (Frame V)}
    (hstack : m.stack = f :: stack) (hf : ∀ node e, f ≠ .freeEventsFor node e) :
    stack = [] := by
  by_contra hne
  have hmem : f ∈ m.stack.dropLast := by
    rw [hstack, List.dropLast_cons_of_ne_nil hne]
    exact List.mem_cons_self
  obtain ⟨node, e, rfl⟩ := h.bottom f hmem
  exact hf node e rfl

/-- The test of `register_event` keeps new events behind the running one. -/
theorem registerEvent (h : Sane m) (when : Int) (node : NodeId) (forced : Bool)
    (parameter : V) : Sane (m.registerEvent when node forced parameter) := by
  rcases registerEvent_cases m when node forced parameter with ⟨hlt, heq⟩ | ⟨o, ho, heq⟩
  · rw [heq]
    have hnew := h.newEvent_not_mem when node forced parameter
    have hnotq : newEvent m when node forced parameter ∉ m.eventsQueue :=
      fun hq => hnew (h.queued _ hq)
    refine ⟨?_, OrderedList.push_nodup h.nodup, ?_, ?_, ?_, h.bottom, ?_, ?_, ?_⟩
    · intro e he
      simp only [accepted_append, List.mem_append] at he
      rcases he with he | he
      · exact (h.ids e he).trans (Nat.lt_succ_self _)
      · obtain rfl : e = newEvent m when node forced parameter := by simpa [accepted] using he
        simp
    · intro e he
      rcases OrderedList.mem_push.mp he with rfl | he
      · simp
      · simpa using Or.inl (mem_accepted.mp (h.queued e he))
    · intro e he
      simpa using Or.inl (mem_accepted.mp (h.ran e (by simpa [triggered] using he)))
    · intro e he
      simpa using Or.inl (mem_accepted.mp (h.gone e (by simpa using he)))
    · intro e he hfreed
      have hfreed' : e ∈ freed m.log := by simpa using hfreed
      rcases OrderedList.mem_push.mp he with rfl | he
      · exact absurd (h.gone _ hfreed') hnew
      · exact h.cancelled e he hfreed'
    · intro node e he
      simpa using h.cancelling node e he
    · intro T e he
      obtain ⟨htime, hacc, hhead⟩ := h.head T e he
      refine ⟨htime, by simpa using Or.inl (mem_accepted.mp hacc), fun hq => ?_⟩
      have hne : e ≠ newEvent m when node forced parameter := fun heq => hnew (heq ▸ hacc)
      obtain ⟨rest, hrest⟩ := hhead ((OrderedList.mem_push.mp hq).resolve_left hne)
      have hge : Event.ge (newEvent m when node forced parameter) e = true := by
        rw [Event.ge_eq_true, newEvent_when]
        omega
      refine ⟨OrderedList.insertContainer Event.ge (newEvent m when node forced parameter) rest,
        ?_⟩
      change OrderedList.push Event.ge _ m.eventsQueue = _
      rw [OrderedList.push_of_not_mem hnotq, hrest]
      simp [OrderedList.insertContainer, hge]
  · have hacc : accepted (m.log ++ [o]) = accepted m.log := by
      rcases ho with rfl | rfl <;> simp [accepted]
    have hran : triggered (m.log ++ [o]) = triggered m.log := by
      rcases ho with rfl | rfl <;> simp [triggered]
    have hgone : freed (m.log ++ [o]) = freed m.log := by
      rcases ho with rfl | rfl <;> simp [freed]
    rw [heq]
    refine ⟨fun e he => ?_, h.nodup, ?_, ?_, ?_, h.bottom, ?_, ?_, ?_⟩
    · exact (h.ids e (hacc ▸ he)).trans (Nat.lt_succ_self _)
    · exact hacc ▸ h.queued
    · exact hacc ▸ hran ▸ h.ran
    · exact hacc ▸ hgone ▸ h.gone
    · exact hgone ▸ h.cancelled
    · exact hgone ▸ h.cancelling
    · exact hacc ▸ h.head

omit [DecidableEq V] in
/-- `free_events_for` stops at a forced event of the node and triggers it. -/
theorem forces {node : NodeId} {e : Event V} (h : Sane m) (he : e ∈ accepted m.log) :
    Sane { m with
      stack := .freeEventsFor node e :: m.stack
      log := m.log ++ [.freed e, .forced e] } where
  ids := by simpa [accepted] using h.ids
  nodup := h.nodup
  queued := by simpa using h.queued
  ran := by simpa [triggered] using h.ran
  gone := by
    intro d hd
    have hd' : d ∈ freed m.log ∨ d = e := by simpa [freed] using hd
    rcases hd' with hd | rfl
    · simpa using h.gone d hd
    · simpa using he
  bottom := by
    intro f hf
    cases hstack : m.stack with
    | nil => simp [hstack] at hf
    | cons g gs =>
      rw [hstack, List.dropLast_cons_cons, ← hstack] at hf
      rcases List.mem_cons.mp hf with rfl | hf
      · exact ⟨node, e, rfl⟩
      · exact h.bottom f hf
  cancelled := by
    intro d hd hfreed
    have hfreed' : d ∈ freed m.log ∨ d = e := by simpa [freed] using hfreed
    rcases hfreed' with hfreed | rfl
    · obtain ⟨n, hn⟩ := h.cancelled d hd hfreed
      exact ⟨n, List.mem_cons_of_mem _ hn⟩
    · exact ⟨node, List.mem_cons_self⟩
  cancelling := by
    intro n d hd
    rcases List.mem_cons.mp hd with heq | hd
    · obtain ⟨rfl, rfl⟩ := Frame.freeEventsFor.inj heq
      simp
    · simpa using Or.inl (mem_freed.mp (h.cancelling n d hd))
  head := by
    intro T d hd
    have hd' : .popEvents T d ∈ m.stack := by simpa using hd
    simpa using h.head T d hd'

/-- `events_queue_.remove(e)`. -/
theorem erases (h : Sane m) (e : Event V) :
    Sane { m with eventsQueue := m.eventsQueue.erase e } where
  ids := h.ids
  nodup := h.nodup.erase e
  queued := fun d hd => h.queued d (List.mem_of_mem_erase hd)
  ran := h.ran
  gone := h.gone
  bottom := h.bottom
  cancelled := fun d hd hfreed => h.cancelled d (List.mem_of_mem_erase hd) hfreed
  cancelling := h.cancelling
  head := by
    intro T d hd
    obtain ⟨htime, hacc, hhead⟩ := h.head T d hd
    refine ⟨htime, hacc, fun hq => ?_⟩
    obtain ⟨hne, hq'⟩ := h.nodup.mem_erase_iff.mp hq
    obtain ⟨rest, hrest⟩ := hhead hq'
    refine ⟨rest.erase e, ?_⟩
    change m.eventsQueue.erase e = _
    rw [hrest, List.erase_cons_tail (by simpa using hne)]

omit [DecidableEq V] in
/-- An accepted event that is out of the queue counts as cancelled from now on. -/
theorem cancels {e : Event V} (h : Sane m) (he : e ∈ accepted m.log)
    (hq : e ∉ m.eventsQueue) : Sane { m with log := m.log ++ [.freed e] } where
  ids := by simpa [accepted] using h.ids
  nodup := h.nodup
  queued := by simpa using h.queued
  ran := by simpa [triggered] using h.ran
  gone := by
    intro d hd
    have hd' : d ∈ freed m.log ∨ d = e := by simpa [freed] using hd
    rcases hd' with hd | rfl
    · simpa using h.gone d hd
    · simpa using he
  bottom := h.bottom
  cancelled := by
    intro d hd hfreed
    have hfreed' : d ∈ freed m.log ∨ d = e := by simpa [freed] using hfreed
    rcases hfreed' with hfreed | rfl
    · exact h.cancelled d hd hfreed
    · exact absurd hd hq
  cancelling := by
    intro n d hd
    simpa using Or.inl (mem_freed.mp (h.cancelling n d hd))
  head := by simpa using h.head

/-- `free_events_for` keeps the invariant. -/
theorem freeEventsFor {it : List (Event V)} (node : NodeId) (h : Sane m)
    (hit : ∀ e ∈ it, e ∈ accepted m.log) : Sane (Machine.freeEventsFor node it m) := by
  have hboth : Sane (Machine.freeEventsFor node it m) ∧
      ∀ e ∈ it, e ∈ accepted (Machine.freeEventsFor node it m).log := by
    refine freeEventsFor_induct
      (P := fun m' => Sane m' ∧ ∀ e ∈ it, e ∈ accepted m'.log) ?_ ?_ ⟨h, hit⟩
    · rintro m e he - ⟨hm, hacc⟩ -
      exact ⟨hm.forces (hacc e he), by simpa using hacc⟩
    · rintro m e he - ⟨hm, hacc⟩
      have hq : e ∉ m.eventsQueue.erase e := fun hq => (hm.nodup.mem_erase_iff.mp hq).1 rfl
      exact ⟨(hm.erases e).cancels (hacc e he) hq, by simpa using hacc⟩
  exact hboth.1

omit [DecidableEq V] in
/-- A frame of `free_events_for` can go once its event is out of the queue. -/
theorem unwinds {node : NodeId} {e : Event V} {stack : List (Frame V)} (h : Sane m)
    (hstack : m.stack = .freeEventsFor node e :: stack) (hq : e ∉ m.eventsQueue) :
    Sane { m with stack := stack } where
  ids := h.ids
  nodup := h.nodup
  queued := h.queued
  ran := h.ran
  gone := h.gone
  bottom := by
    intro f hf
    refine h.bottom f ?_
    cases stack with
    | nil => simp at hf
    | cons g gs =>
      rw [hstack, List.dropLast_cons_cons]
      exact List.mem_cons_of_mem _ hf
  cancelled := by
    intro d hd hfreed
    obtain ⟨n, hn⟩ := h.cancelled d hd hfreed
    rw [hstack] at hn
    rcases List.mem_cons.mp hn with heq | hn
    · obtain ⟨rfl, rfl⟩ := Frame.freeEventsFor.inj heq
      exact absurd hd hq
    · exact ⟨n, hn⟩
  cancelling := by
    intro n d hd
    exact h.cancelling n d (hstack ▸ List.mem_cons_of_mem _ hd)
  head := by
    intro T d hd
    exact h.head T d (hstack ▸ List.mem_cons_of_mem _ hd)

omit [DecidableEq V] in
/-- What the loops of the worker do between two handlers does not matter, as long
as no handler of a popped event runs. -/
theorem between (h : Sane m) (hstack : m.stack = []) (currentTime : Int)
    {queue : List (Event V)} (hqueue : queue.Sublist m.eventsQueue) {log : List (Obs V)}
    (hacc : accepted log = accepted m.log) (hran : triggered log = triggered m.log)
    (hgone : freed log = freed m.log) :
    Sane { m with currentTime := currentTime, eventsQueue := queue, log := log } where
  ids := hacc ▸ h.ids
  nodup := h.nodup.sublist hqueue
  queued := hacc ▸ fun e he => h.queued e (hqueue.subset he)
  ran := hacc ▸ hran ▸ h.ran
  gone := hacc ▸ hgone ▸ h.gone
  bottom := by simp [hstack]
  cancelled := hgone ▸ fun e he hfreed => h.cancelled e (hqueue.subset he) hfreed
  cancelling := by simp [hstack]
  head := by simp [hstack]

omit [DecidableEq V] in
/-- The handler that `loop()` called returns. -/
theorem settles (h : Sane m) {f : Frame V} (hstack : m.stack = [f])
    (hf : ∀ node e, f ≠ .freeEventsFor node e) : Sane { m with stack := [] } where
  ids := h.ids
  nodup := h.nodup
  queued := h.queued
  ran := h.ran
  gone := h.gone
  bottom := by simp
  cancelled := by
    intro d hd hfreed
    obtain ⟨n, hn⟩ := h.cancelled d hd hfreed
    obtain rfl : Frame.freeEventsFor n d = f := by simpa [hstack] using hn
    exact absurd rfl (hf n d)
  cancelling := by simp
  head := by simp

omit [DecidableEq V] in
theorem popEvents (h : Sane m) (hstack : m.stack = []) (realTime : Int) :
    Sane (Machine.popEvents realTime m) := by
  rcases popEvents_cases realTime m with ⟨e, rest, hq, -, heq⟩ | ⟨-, heq⟩
  · have he : e ∈ accepted m.log := h.queued e (by simp [hq])
    rw [heq]
    refine ⟨by simpa [accepted] using h.ids, h.nodup, by simpa using h.queued, ?_, ?_, ?_, ?_,
      ?_, ?_⟩
    · intro d hd
      have hd' : d ∈ triggered m.log ∨ d = e := by simpa [triggered] using hd
      rcases hd' with hd | rfl
      · simpa using h.ran d hd
      · simpa using he
    · simpa [freed] using h.gone
    · simp [hstack]
    · intro d hd hfreed
      obtain ⟨n, hn⟩ := h.cancelled d hd (by simpa [freed] using hfreed)
      exact ⟨n, List.mem_cons_of_mem _ hn⟩
    · simp [hstack]
    · intro T d hd
      have hd' : .popEvents T d = Frame.popEvents realTime e := by simpa [hstack] using hd
      obtain ⟨rfl, rfl⟩ := Frame.popEvents.inj hd'
      exact ⟨rfl, by simpa using he, fun _ => ⟨rest, hq⟩⟩
  · rw [heq]
    exact h.between hstack realTime (List.Sublist.refl _) (by simp [accepted])
      (by simp [triggered]) (by simp [freed])

omit [DecidableEq V] in
theorem triggerLoopEvents {it endIt : Nat} (h : Sane m) (hstack : m.stack = [])
    (hm' : Machine.triggerLoopEvents it endIt m = .ok m') : Sane m' := by
  rcases triggerLoopEvents_cases hm' with ⟨node, -, -, rfl⟩ | ⟨-, rfl⟩
  · refine ⟨by simpa [accepted] using h.ids, h.nodup, by simpa using h.queued,
      by simpa [triggered] using h.ran, by simpa [freed] using h.gone, by simp [hstack], ?_,
      by simp [hstack], by simp [hstack]⟩
    intro d hd hfreed
    obtain ⟨n, hn⟩ := h.cancelled d hd (by simpa [freed] using hfreed)
    exact ⟨n, List.mem_cons_of_mem _ hn⟩
  · exact h.popEvents hstack m.currentTime

/-- Every step keeps the invariant. -/
theorem step {a : Action V} (h : Sane m) (hm' : Machine.step m a = .ok m') : Sane m' := by
  cases a with
  | registerEvent when node forced parameter =>
    obtain rfl : m.registerEvent when node forced parameter = m' := by
      simpa [Machine.step] using hm'
    exact h.registerEvent when node forced parameter
  | freeEventsFor node =>
    obtain rfl : Machine.freeEventsFor node m.eventsQueue m = m' := by
      simpa [Machine.step, OrderedList.begin] using hm'
    exact h.freeEventsFor node h.queued
  | registerLoopedNode node =>
    obtain rfl : m.registerLoopedNode node = m' := by simpa [Machine.step] using hm'
    exact ⟨h.ids, h.nodup, h.queued, h.ran, h.gone, h.bottom, h.cancelled, h.cancelling, h.head⟩
  | freeLoopedNode node =>
    obtain rfl : m.freeLoopedNode node = m' := by simpa [Machine.step] using hm'
    exact ⟨h.ids, h.nodup, h.queued, h.ran, h.gone, h.bottom, h.cancelled, h.cancelling, h.head⟩
  | shouldRun value =>
    obtain rfl : { m with shouldRun := value } = m' := by simpa [Machine.step] using hm'
    exact ⟨h.ids, h.nodup, h.queued, h.ran, h.gone, h.bottom, h.cancelled, h.cancelling, h.head⟩
  | loop elapsed =>
    obtain ⟨hstack, hloop⟩ := loop_cases hm'
    exact (h.between hstack elapsed (List.Sublist.refl _) rfl rfl rfl).triggerLoopEvents
      hstack hloop
  | handlerReturns =>
    rcases handlerReturns_cases hm' with ⟨it, endIt, stack, hstack, hloop⟩ |
      ⟨T, e, stack, hstack, rfl⟩ | ⟨node, e, stack, it, hstack, hit, rfl⟩
    · obtain rfl : stack = [] := h.stack_eq_nil hstack (by simp)
      exact (h.settles hstack (by simp)).triggerLoopEvents rfl hloop
    · obtain rfl : stack = [] := h.stack_eq_nil hstack (by simp)
      have htail := (h.settles hstack (by simp)).between rfl m.currentTime
        (List.tail_sublist m.eventsQueue) rfl rfl rfl
      exact htail.popEvents rfl T
    · have hq : e ∉ m.eventsQueue.erase e := fun hq => (h.nodup.mem_erase_iff.mp hq).1 rfl
      refine ((h.erases e).unwinds hstack hq).freeEventsFor node fun d hd => ?_
      exact h.queued d (OrderedList.mem_of_remove_fst hit hd)

end Sane

/-! ## Nobody's event is lost -/

section Lost

variable {m m' : Machine V}

/-- Only what the history and the queue say about the events matters. -/
theorem Accounted.of_same (h : Accounted m) (hacc : accepted m'.log = accepted m.log)
    (hran : triggered m'.log = triggered m.log) (hgone : freed m.log ⊆ freed m'.log)
    (hwaiting : ∀ e ∉ freed m'.log, Waiting m' e ↔ Waiting m e) : Accounted m' := by
  intro e he hfreed
  have hbefore := h e (hacc ▸ he) fun hf => hfreed (hgone hf)
  unfold AccountedFor at hbefore ⊢
  rwa [hran, hwaiting e hfreed]

theorem Accounted.registerEvent (h : Accounted m) (hsane : Sane m) (when : Int)
    (node : NodeId) (forced : Bool) (parameter : V) :
    Accounted (m.registerEvent when node forced parameter) := by
  rcases registerEvent_cases m when node forced parameter with ⟨-, heq⟩ | ⟨o, ho, heq⟩
  · have hnew := hsane.newEvent_not_mem when node forced parameter
    rw [heq]
    intro e he hfreed
    have he' : e ∈ accepted m.log ∨ e = newEvent m when node forced parameter := by
      simpa [accepted] using he
    rcases he' with he | rfl
    · have hne : e ≠ newEvent m when node forced parameter := fun heq => hnew (heq ▸ he)
      have hbefore := h e he (by simpa using hfreed)
      simpa [AccountedFor, Waiting, hne, triggered] using hbefore
    · have hrun : newEvent m when node forced parameter ∉ running m.stack := by
        intro hrun
        obtain ⟨T, hT⟩ := mem_running.mp hrun
        exact hnew (hsane.head T _ hT).2.1
      refine Or.inl ⟨⟨OrderedList.mem_push.mpr (Or.inl rfl), hrun⟩, ?_⟩
      refine List.count_eq_zero.mpr fun hmem => hnew (hsane.ran _ ?_)
      simpa [triggered] using hmem
  · rw [heq]
    refine h.of_same ?_ ?_ ?_ fun e _ => Iff.rfl
    · rcases ho with rfl | rfl <;> simp [accepted]
    · rcases ho with rfl | rfl <;> simp [triggered]
    · rcases ho with rfl | rfl <;> simp [freed]

theorem Accounted.freeEventsFor (h : Accounted m) (node : NodeId) (it : List (Event V)) :
    Accounted (Machine.freeEventsFor node it m) := by
  refine freeEventsFor_induct (P := Accounted) ?_ ?_ h
  · intro m e _ _ hm _
    exact hm.of_same (by simp [accepted]) (by simp [triggered]) (by simp) fun d _ => Iff.rfl
  · intro m e _ _ hm
    refine hm.of_same (by simp [accepted]) (by simp [triggered]) (by simp) fun d hd => ?_
    have hne : d ≠ e := by
      rintro rfl
      exact hd (by simp)
    simp [Waiting, List.mem_erase_of_ne hne]

/-- Starting a handler moves its event from the waiting to the triggered ones. -/
theorem accounted_popEvents (hstack : m.stack = []) (realTime : Int) :
    Accounted (popEvents realTime m) ↔ Accounted m := by
  rcases popEvents_cases realTime m with ⟨e, rest, hq, -, heq⟩ | ⟨-, heq⟩
  · rw [heq]
    refine forall_congr' fun d => ?_
    have hone : AccountedFor
        { m with
          currentTime := e.when
          stack := .popEvents realTime e :: m.stack
          log := m.log ++ [.triggered e realTime e.when] } d ↔ AccountedFor m d := by
      by_cases hd : d = e
      · subst hd
        simp [AccountedFor, Waiting, hstack, hq, triggered]
      · have hne : ¬ e = d := fun h => hd h.symm
        simp [AccountedFor, Waiting, hstack, hd, hne, triggered, List.count_append]
    simp [hone]
  · rw [heq]
    simp [Accounted, AccountedFor, Waiting, triggered]

theorem Accounted.triggerLoopEvents {it endIt : Nat} (h : Accounted m) (hstack : m.stack = [])
    (hm' : Machine.triggerLoopEvents it endIt m = .ok m') : Accounted m' := by
  rcases triggerLoopEvents_cases hm' with ⟨node, -, -, rfl⟩ | ⟨-, rfl⟩
  · refine h.of_same (by simp [accepted]) (by simp [triggered]) (by simp) fun e _ => ?_
    simp [Waiting]
  · exact (accounted_popEvents hstack m.currentTime).mpr h

/-- `pop()` takes the event of somebody else exactly when the running event is no
longer queued and another one is. -/
theorem accounted_pop {T : Int} {e : Event V} (h : Accounted m) (hsane : Sane m)
    (hstack : m.stack = [.popEvents T e]) :
    Accounted { m with stack := [], eventsQueue := m.eventsQueue.tail } ↔
      m.eventsQueue = [] ∨ e ∈ m.eventsQueue := by
  constructor
  · intro hafter
    by_contra hlost
    obtain ⟨hne, he⟩ := not_or.mp hlost
    obtain ⟨x, rest, hq⟩ := List.exists_cons_of_ne_nil hne
    have hx : x ∈ m.eventsQueue := by simp [hq]
    have hxe : x ≠ e := fun heq => he (heq ▸ hx)
    have hxrest : x ∉ rest := (List.nodup_cons.mp (hq ▸ hsane.nodup)).1
    have hxacc := hsane.queued x hx
    have hxfreed : x ∉ freed m.log := by
      intro hfreed
      obtain ⟨n, hn⟩ := hsane.cancelled x hx hfreed
      simp [hstack] at hn
    have hbefore := h x hxacc hxfreed
    have hnow := hafter x hxacc hxfreed
    simp [AccountedFor, Waiting, hstack, hx, hxe] at hbefore
    simp [AccountedFor, Waiting, hq, hxrest, hbefore] at hnow
  · intro hown
    refine h.of_same rfl rfl (List.Subset.refl _) fun d _ => ?_
    rcases hown with hq | hq
    · simp [Waiting, hq]
    · obtain ⟨-, -, hhead⟩ := hsane.head T e (by simp [hstack])
      obtain ⟨rest, hrest⟩ := hhead hq
      have herest : e ∉ rest := (List.nodup_cons.mp (hrest ▸ hsane.nodup)).1
      have hne : d ∈ rest → d ≠ e := fun hd heq => herest (heq ▸ hd)
      simp only [Waiting, hstack, hrest, List.tail_cons, running_nil, running_popEvents,
        List.mem_cons, List.not_mem_nil, or_false, not_false_eq_true, and_true]
      tauto

/-- A step keeps everything accounted for, unless a handler returns whose event
has left the queue while another one is there. -/
theorem accounted_step {a : Action V} (hsane : Sane m) (h : Accounted m)
    (hm' : step m a = .ok m') : Accounted m' ↔ PopsItsOwn m a := by
  cases a with
  | registerEvent when node forced parameter =>
    obtain rfl : m.registerEvent when node forced parameter = m' := by simpa [step] using hm'
    exact iff_of_true (h.registerEvent hsane when node forced parameter)
      (popsItsOwn_of_ne (by simp))
  | freeEventsFor node =>
    obtain rfl : freeEventsFor node m.eventsQueue m = m' := by
      simpa [step, OrderedList.begin] using hm'
    exact iff_of_true (h.freeEventsFor node m.eventsQueue) (popsItsOwn_of_ne (by simp))
  | registerLoopedNode node =>
    obtain rfl : m.registerLoopedNode node = m' := by simpa [step] using hm'
    exact iff_of_true h (popsItsOwn_of_ne (by simp))
  | freeLoopedNode node =>
    obtain rfl : m.freeLoopedNode node = m' := by simpa [step] using hm'
    exact iff_of_true h (popsItsOwn_of_ne (by simp))
  | shouldRun value =>
    obtain rfl : { m with shouldRun := value } = m' := by simpa [step] using hm'
    exact iff_of_true h (popsItsOwn_of_ne (by simp))
  | loop elapsed =>
    obtain ⟨hstack, hloop⟩ := loop_cases hm'
    have hstart : Accounted { m with currentTime := elapsed } := h
    exact iff_of_true (hstart.triggerLoopEvents hstack hloop) (popsItsOwn_of_ne (by simp))
  | handlerReturns =>
    rcases handlerReturns_cases hm' with ⟨it, endIt, stack, hstack, hloop⟩ |
      ⟨T, e, stack, hstack, rfl⟩ | ⟨node, e, stack, it, hstack, hit, rfl⟩
    · obtain rfl : stack = [] := hsane.stack_eq_nil hstack (by simp)
      have hsettled : Accounted { m with stack := [] } :=
        h.of_same rfl rfl (List.Subset.refl _) fun e _ => by simp [Waiting, hstack]
      exact iff_of_true (hsettled.triggerLoopEvents rfl hloop)
        (popsItsOwn_of_ne (by simp [hstack]))
    · obtain rfl : stack = [] := hsane.stack_eq_nil hstack (by simp)
      rw [accounted_popEvents rfl, accounted_pop h hsane hstack]
      constructor
      · intro hown _ T' d stack hstack'
        obtain ⟨⟨-, rfl⟩, -⟩ : (T = T' ∧ e = d) ∧ [] = stack := by simpa [hstack] using hstack'
        exact hown
      · intro hown
        exact hown rfl T e [] hstack
    · have hcancelled : e ∈ freed m.log := hsane.cancelling node e (by simp [hstack])
      have hunwound : Accounted
          { m with stack := stack, eventsQueue := m.eventsQueue.erase e } := by
        refine h.of_same rfl rfl (List.Subset.refl _) fun d hd => ?_
        have hne : d ≠ e := by
          rintro rfl
          exact hd hcancelled
        simp [Waiting, hstack, List.mem_erase_of_ne hne]
      exact iff_of_true (hunwound.freeEventsFor node it) (popsItsOwn_of_ne (by simp [hstack]))

end Lost

/-! ## Whole runs -/

/-- Whatever is in the queue at the start and whatever the handlers register and
cancel: no event is lost in a run, up to any point of it, exactly when every
event `pop_events` ran was still queued as its handler returned, or nothing was. -/
theorem accounted_throughout_iff {m₀ : Machine V} (h : Start m₀) (acts : List (Action V)) :
    Lib.Throughout (Lib.StepOf step) m₀ acts Accounted ↔
      Lib.EveryStep (Lib.StepOf step) m₀ acts PopsItsOwn := by
  refine Lib.throughout_iff ?_ ?_ h.sane h.accounted acts
  · intro m a m' hsane hstep
    exact hsane.step hstep
  · intro m a m' hsane hacc hstep
    exact accounted_step hsane hacc hstep

/-- A metronome at node 0 whose bang reaches its own tempo inlet, while an event
of node 1 is due later. -/
def metroRetunesItself : List (Action Unit) :=
  [.registerEvent 10 0 false (), .registerEvent 12 1 false (), .loop 20,
    -- `Metro::bang` schedules the next bang, its outlet reaches `change_tempo`,
    -- which cancels the events of the node and bangs again
    .registerEvent 15 0 false (), .freeEventsFor 0, .registerEvent 30 0 false (),
    .handlerReturns]

theorem accounted_throughout_iff_metro :
    Lib.Throughout (Lib.StepOf step) (init true) metroRetunesItself Accounted ↔
      Lib.EveryStep (Lib.StepOf step) (init true) metroRetunesItself PopsItsOwn :=
  accounted_throughout_iff ⟨rfl, rfl, by decide, by decide⟩ metroRetunesItself

/-- The event of node 1 is gone: neither queued, nor triggered, nor cancelled. -/
theorem metro_loses_event : ∃ m, Lib.Run (Lib.StepOf step) (init true) metroRetunesItself m ∧
    ¬ Accounted m :=
  ⟨_, Lib.Run.of_foldlM rfl, by decide⟩

end Rubyk.Machine
