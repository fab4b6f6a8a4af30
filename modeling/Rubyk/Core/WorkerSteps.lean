/-
  Core/WorkerSteps.lean --- what one step of the worker can do.

  Each function of `Core/Worker.lean` gets one lemma that says everything it can
  do, with its guards.  The invariants of the later files are case analyses over
  these lemmas and never unfold the functions again.

  The file ends with the invariant every run keeps, whatever the handlers do:
  the queue holds distinct accepted events.
-/
import Rubyk.Core.Worker

set_option autoImplicit false

namespace Rubyk.Machine

variable {V : Type}

/-! ## Reading the history -/

@[simp] theorem accepted_nil : accepted ([] : List (Obs V)) = [] := rfl
@[simp] theorem triggered_nil : triggered ([] : List (Obs V)) = [] := rfl
@[simp] theorem freed_nil : freed ([] : List (Obs V)) = [] := rfl

@[simp] theorem accepted_append (l₁ l₂ : List (Obs V)) :
    accepted (l₁ ++ l₂) = accepted l₁ ++ accepted l₂ := by
  induction l₁ with
  | nil => rfl
  | cons o os ih => cases o <;> simp [accepted, ih]

@[simp] theorem triggered_append (l₁ l₂ : List (Obs V)) :
    triggered (l₁ ++ l₂) = triggered l₁ ++ triggered l₂ := by
  induction l₁ with
  | nil => rfl
  | cons o os ih => cases o <;> simp [triggered, ih]

@[simp] theorem freed_append (l₁ l₂ : List (Obs V)) :
    freed (l₁ ++ l₂) = freed l₁ ++ freed l₂ := by
  induction l₁ with
  | nil => rfl
  | cons o os ih => cases o <;> simp [freed, ih]

@[simp] theorem mem_accepted {log : List (Obs V)} {e : Event V} :
    e ∈ accepted log ↔ .accepted e ∈ log := by
  induction log with
  | nil => simp
  | cons o os ih => cases o <;> simp [accepted, ih]

@[simp] theorem mem_freed {log : List (Obs V)} {e : Event V} :
    e ∈ freed log ↔ .freed e ∈ log := by
  induction log with
  | nil => simp
  | cons o os ih => cases o <;> simp [freed, ih]

theorem mem_triggered {log : List (Obs V)} {e : Event V} :
    e ∈ triggered log ↔ ∃ realTime at_, .triggered e realTime at_ ∈ log := by
  induction log with
  | nil => simp
  | cons o os ih =>
    cases o with
    | triggered e' T t =>
      simp only [triggered, List.mem_cons, ih, Obs.triggered.injEq]
      constructor
      · rintro (rfl | ⟨T', t', h⟩)
        · exact ⟨T, t, Or.inl ⟨rfl, rfl, rfl⟩⟩
        · exact ⟨T', t', Or.inr h⟩
      · rintro ⟨T', t', ⟨rfl, -, -⟩ | h⟩
        · exact Or.inl rfl
        · exact Or.inr ⟨T', t', h⟩
    | _ => simp [triggered, ih]

/-! ## `register_event` -/

/-- The event `register_event` is called with. -/
def newEvent (m : Machine V) (when : Int) (node : NodeId) (forced : Bool)
    (parameter : V) : Event V :=
  ⟨m.nextId, when, node, forced, parameter⟩

@[simp] theorem newEvent_id (m : Machine V) (when : Int) (node : NodeId)
    (forced : Bool) (parameter : V) :
    (newEvent m when node forced parameter).id = m.nextId := rfl
@[simp] theorem newEvent_when (m : Machine V) (when : Int) (node : NodeId)
    (forced : Bool) (parameter : V) :
    (newEvent m when node forced parameter).when = when := rfl

variable [DecidableEq V]

/-- The event is later than the logical time, and the worker takes it. -/
def Accepts (m : Machine V) (when : Int) (forced : Bool) : Prop :=
  m.currentTime < when ∧ (m.shouldRun || forced) = true

instance (m : Machine V) (when : Int) (forced : Bool) : Decidable (Accepts m when forced) :=
  inferInstanceAs (Decidable (_ ∧ _))

theorem registerEvent_accepts {m : Machine V} {when : Int} {forced : Bool}
    (h : Accepts m when forced) (node : NodeId) (parameter : V) :
    m.registerEvent when node forced parameter =
      { m with
        nextId := m.nextId + 1
        eventsQueue := OrderedList.push Event.ge
          (newEvent m when node forced parameter) m.eventsQueue
        log := m.log ++ [.accepted (newEvent m when node forced parameter)] } := by
  obtain ⟨hlt, hrun⟩ := h
  simp [registerEvent, newEvent, not_le.mpr hlt, hrun]

theorem registerEvent_rejects {m : Machine V} {when : Int} {forced : Bool}
    (h : ¬ Accepts m when forced) (node : NodeId) (parameter : V) :
    ∃ o, (o = .missed (newEvent m when node forced parameter) ∨
        o = .refused (newEvent m when node forced parameter)) ∧
      m.registerEvent when node forced parameter =
        { m with nextId := m.nextId + 1, log := m.log ++ [o] } := by
  by_cases hsoon : when ≤ m.currentTime
  · refine ⟨_, Or.inl rfl, ?_⟩
    simp [registerEvent, note, newEvent, hsoon]
  · have hrun : (m.shouldRun || forced) = false := by
      by_contra hrun
      exact h ⟨not_le.mp hsoon, (Bool.not_eq_false _).mp hrun⟩
    refine ⟨_, Or.inr rfl, ?_⟩
    simp [registerEvent, note, newEvent, hsoon, hrun]

/-- `register_event` pushes the event, or only notes that it did not. -/
theorem registerEvent_cases (m : Machine V) (when : Int) (node : NodeId)
    (forced : Bool) (parameter : V) :
    (m.currentTime < when ∧
      m.registerEvent when node forced parameter =
        { m with
          nextId := m.nextId + 1
          eventsQueue := OrderedList.push Event.ge
            (newEvent m when node forced parameter) m.eventsQueue
          log := m.log ++ [.accepted (newEvent m when node forced parameter)] }) ∨
    ∃ o, (o = .missed (newEvent m when node forced parameter) ∨
        o = .refused (newEvent m when node forced parameter)) ∧
      m.registerEvent when node forced parameter =
        { m with nextId := m.nextId + 1, log := m.log ++ [o] } := by
  by_cases h : Accepts m when forced
  · exact Or.inl ⟨h.1, registerEvent_accepts h node parameter⟩
  · exact Or.inr (registerEvent_rejects h node parameter)

/-! ## The loops of the worker -/

omit [DecidableEq V] in
/-- A loop of the worker may call the next handler after this action. -/
def resumesLoop (m : Machine V) : Action V → Bool
  | .loop _ => true
  | .handlerReturns =>
      match m.stack with
      | .freeEventsFor _ _ :: _ => false
      | _ => true
  | _ => false

omit [DecidableEq V] in
/-- `pop_events` runs the next handler, or ends. -/
theorem popEvents_cases (realTime : Int) (m : Machine V) :
    (∃ e rest, m.eventsQueue = e :: rest ∧ e.when ≤ realTime ∧
      popEvents realTime m =
        { m with
          currentTime := e.when
          stack := .popEvents realTime e :: m.stack
          log := m.log ++ [.triggered e realTime e.when] }) ∨
    ((∀ e rest, m.eventsQueue = e :: rest → realTime < e.when) ∧
      popEvents realTime m =
        { m with currentTime := realTime, log := m.log ++ [.loopDone realTime] }) := by
  unfold popEvents OrderedList.get
  cases hq : m.eventsQueue with
  | nil => exact Or.inr ⟨by simp, rfl⟩
  | cons e rest =>
    by_cases hle : e.when ≤ realTime
    · exact Or.inl ⟨e, rest, rfl, hle, by simp [hle]⟩
    · refine Or.inr ⟨?_, by simp [hle]⟩
      intro e' rest' h
      obtain ⟨rfl, -⟩ := List.cons.inj h
      omega

omit [DecidableEq V] in
/-- `trigger_loop_events` bangs the next looped node, or hands over to
`pop_events`. -/
theorem triggerLoopEvents_cases {it endIt : Nat} {m m' : Machine V}
    (h : triggerLoopEvents it endIt m = .ok m') :
    (∃ node, it < endIt ∧ m.loopedNodes.get? it = some node ∧
      m' = { m with
        stack := .triggerLoopEvents it endIt :: m.stack
        log := m.log ++ [.looped node] }) ∨
    (endIt ≤ it ∧ m' = popEvents m.currentTime m) := by
  unfold triggerLoopEvents at h
  by_cases hlt : it < endIt
  · rw [if_pos hlt] at h
    cases hnode : m.loopedNodes.get? it with
    | none => simp [hnode] at h
    | some node =>
      simp only [hnode, Except.ok.injEq] at h
      exact Or.inl ⟨node, hlt, rfl, h.symm⟩
  · rw [if_neg hlt, Except.ok.injEq] at h
    exact Or.inr ⟨by omega, h.symm⟩

omit [DecidableEq V] in
/-- `loop()` starts only when no handler runs. -/
theorem loop_cases {m m' : Machine V} {elapsed : Int} (h : m.loop elapsed = .ok m') :
    m.stack = [] ∧
      triggerLoopEvents m.loopedNodes.first m.loopedNodes.stop
        { m with currentTime := elapsed } = .ok m' := by
  unfold loop at h
  cases hstack : m.stack with
  | nil => exact ⟨rfl, by simpa [hstack] using h⟩
  | cons f fs => simp [hstack] at h

/-- Control goes back to the loop that waits for the handler. -/
theorem handlerReturns_cases {m m' : Machine V} (h : m.handlerReturns = .ok m') :
    (∃ it endIt stack, m.stack = .triggerLoopEvents it endIt :: stack ∧
      triggerLoopEvents (it + 1) endIt { m with stack := stack } = .ok m') ∨
    (∃ realTime e stack, m.stack = .popEvents realTime e :: stack ∧
      m' = popEvents realTime
        { m with stack := stack, eventsQueue := m.eventsQueue.tail }) ∨
    (∃ node e stack it, m.stack = .freeEventsFor node e :: stack ∧
      (OrderedList.remove e m.eventsQueue).1 = some it ∧
      m' = freeEventsFor node it
        { m with stack := stack, eventsQueue := m.eventsQueue.erase e }) := by
  unfold handlerReturns at h
  cases hstack : m.stack with
  | nil => simp [hstack] at h
  | cons f fs =>
    cases f with
    | triggerLoopEvents it endIt =>
      exact Or.inl ⟨it, endIt, fs, rfl, by simpa [hstack] using h⟩
    | popEvents T e =>
      simp only [hstack, Except.ok.injEq] at h
      exact Or.inr (Or.inl ⟨T, e, fs, rfl, h.symm⟩)
    | freeEventsFor node e =>
      have hsnd := OrderedList.remove_snd e m.eventsQueue
      rcases hrem : OrderedList.remove e m.eventsQueue with ⟨it, queue⟩
      rw [hrem] at hsnd
      cases it with
      | none => simp [hstack, hrem] at h
      | some it =>
        simp only [hstack, hrem, Except.ok.injEq] at h
        refine Or.inr (Or.inr ⟨node, e, fs, it, rfl, by rw [hrem], ?_⟩)
        rw [← h, ← hsnd]

/-- A property of machines that every part of `free_events_for` keeps is kept by
`free_events_for`, from iterator `it` on. -/
theorem freeEventsFor_induct {P : Machine V → Prop} {node : NodeId} {it : List (Event V)}
    (hforced : ∀ (m : Machine V), ∀ e ∈ it, e.node = node → P m → e.forced = true →
      P { m with
        stack := .freeEventsFor node e :: m.stack
        log := m.log ++ [.freed e, .forced e] })
    (hremove : ∀ (m : Machine V), ∀ e ∈ it, e.node = node → P m →
      P { m with
        eventsQueue := m.eventsQueue.erase e
        log := m.log ++ [.freed e] })
    {m : Machine V} (h : P m) : P (freeEventsFor node it m) := by
  induction it generalizing m with
  | nil => exact h
  | cons e next ih =>
    have hrest : ∀ {m : Machine V}, P m → P (freeEventsFor node next m) :=
      ih (fun m d hd => hforced m d (List.mem_cons_of_mem e hd))
        fun m d hd => hremove m d (List.mem_cons_of_mem e hd)
    simp only [freeEventsFor, OrderedList.remove_snd]
    split
    · rename_i huses
      have hnode : e.node = node := by simpa [Event.usesReceiver] using huses
      split
      · rename_i hf
        exact hforced m e List.mem_cons_self hnode h hf
      · exact hrest (hremove m e List.mem_cons_self hnode h)
    · exact hrest h

end Rubyk.Machine
