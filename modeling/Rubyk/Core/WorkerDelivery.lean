/-
  Core/WorkerDelivery.lean --- events are delivered once, in time and in order.

  THE INVARIANT.  While no handler cancels events, the events `pop_events` has
  triggered, followed by the events still waiting, are at every moment the stable
  sort by `when` of the events accepted so far:

      triggered log ++ waiting = insertAll when (accepted log)

  Handlers push into the list `pop_events` walks, and the logical time goes back
  to the time of the event while its handler runs.  Both are harmless for one
  reason: `register_event` only accepts times after the logical time, and the
  logical time is never before the last triggered event (`Phase`).  So a new event
  always lands in the waiting part, behind the event whose handler is running.
-/
import Rubyk.Core.WorkerTermination
import Rubyk.Lib.Logs

set_option autoImplicit false

namespace Rubyk.Machine

variable {V : Type}

open OrderedList (insertAll Ascending)

/-! ## Which loop triggered an event -/

/-- Every triggering belongs to the first `loop()` that ends after it, or to the
one in progress. -/
def Brackets (current : Option Int) (log : List (Obs V)) : Prop :=
  ∀ p e T t q, log = p ++ .triggered e T t :: q →
    (∃ q₁ q₂, q = q₁ ++ .loopDone T :: q₂ ∧ ∀ T', .loopDone T' ∉ q₁) ∨
      (current = some T ∧ ∀ T', .loopDone T' ∉ q)

theorem Brackets.start {log : List (Obs V)} (h : Brackets none log) (T : Int) :
    Brackets (some T) log := by
  intro p e T' t q hlog
  rcases h p e T' t q hlog with hclosed | ⟨hopen, -⟩
  · exact Or.inl hclosed
  · simp at hopen

theorem Brackets.other {current : Option Int} {log : List (Obs V)} {o : Obs V}
    (h : Brackets current log) (htrig : ∀ e T t, o ≠ .triggered e T t)
    (hdone : ∀ T, o ≠ .loopDone T) : Brackets current (log ++ [o]) := by
  intro p e T t q hlog
  rcases Lib.snoc_eq_append_cons hlog with ⟨-, -, ho⟩ | ⟨q', rfl, hlog'⟩
  · exact absurd ho (htrig e T t)
  · rcases h p e T t q' hlog' with ⟨q₁, q₂, rfl, hq₁⟩ | ⟨hopen, hq'⟩
    · exact Or.inl ⟨q₁, q₂ ++ [o], by simp, hq₁⟩
    · refine Or.inr ⟨hopen, fun T' hmem => ?_⟩
      rcases List.mem_append.mp hmem with hmem | hmem
      · exact hq' T' hmem
      · exact hdone T' (List.mem_singleton.mp hmem).symm

theorem Brackets.trigger {log : List (Obs V)} {T : Int} (h : Brackets (some T) log)
    (e : Event V) (t : Int) : Brackets (some T) (log ++ [.triggered e T t]) := by
  intro p e' T' t' q hlog
  rcases Lib.snoc_eq_append_cons hlog with ⟨rfl, -, ho⟩ | ⟨q', rfl, hlog'⟩
  · obtain ⟨-, rfl, -⟩ := Obs.triggered.inj ho
    exact Or.inr ⟨rfl, by simp⟩
  · rcases h p e' T' t' q' hlog' with ⟨q₁, q₂, rfl, hq₁⟩ | ⟨hopen, hq'⟩
    · exact Or.inl ⟨q₁, q₂ ++ [.triggered e T t], by simp, hq₁⟩
    · exact Or.inr ⟨hopen, fun T'' hmem => hq' T'' (by simpa using hmem)⟩

theorem Brackets.done {log : List (Obs V)} {T : Int} (h : Brackets (some T) log) :
    Brackets none (log ++ [.loopDone T]) := by
  intro p e T' t q hlog
  rcases Lib.snoc_eq_append_cons hlog with ⟨-, -, ho⟩ | ⟨q', rfl, hlog'⟩
  · simp at ho
  · rcases h p e T' t q' hlog' with ⟨q₁, q₂, rfl, hq₁⟩ | ⟨hopen, hq'⟩
    · exact Or.inl ⟨q₁, q₂ ++ [.loopDone T], by simp, hq₁⟩
    · obtain rfl : T = T' := by simpa using hopen
      exact Or.inl ⟨q', [], rfl, hq'⟩

/-! ## The invariant -/

/-- `done ++ waiting` is the stable sort of what was accepted. -/
def Split (m : Machine V) (waiting : List (Event V)) : Prop :=
  triggered m.log ++ waiting = insertAll Event.when (accepted m.log)

/-- What does not depend on where the worker is. -/
structure History (m : Machine V) : Prop where
  ids : ∀ e ∈ accepted m.log, e.id < m.nextId
  nodup : (accepted m.log).Nodup
  timely : ∀ e T t, .triggered e T t ∈ m.log → e.when ≤ T ∧ t = e.when
  onTime : ∀ pre T, pre ++ [.loopDone T] <+: m.log →
    ∀ e ∈ accepted pre, e.when ≤ T → e ∈ triggered pre
  causal : ∀ pre, pre <+: m.log → ∀ e ∈ triggered pre, e ∈ accepted pre

/-- Right after a `loop()` the logical time is its elapsed time. -/
def LastDone (m : Machine V) : Prop :=
  ∀ pre T, m.log = pre ++ [.loopDone T] → m.stack = [] ∧ m.currentTime = T

/-- Where the worker is. -/
inductive Phase (m : Machine V) : Prop
  /-- no `loop()` runs -/
  | idle (hstack : m.stack = []) (hsplit : Split m m.eventsQueue)
      (hpast : ∀ e ∈ triggered m.log, e.when ≤ m.currentTime)
      (hfuture : ∀ e ∈ m.eventsQueue, m.currentTime < e.when)
      (hclock : triggered m.log ≠ [] → .loopDone m.currentTime ∈ m.log)
      (hbrackets : Brackets none m.log)
  /-- `trigger_loop_events` waits for a looped node -/
  | banging (it endIt : Nat) (hstack : m.stack = [.triggerLoopEvents it endIt])
      (hsplit : Split m m.eventsQueue)
      (hpast : ∀ e ∈ triggered m.log, e.when ≤ m.currentTime)
      (hbrackets : Brackets none m.log)
  /-- `pop_events` waits for the handler of the event at the head -/
  | popping (T : Int) (e : Event V) (rest : List (Event V))
      (hstack : m.stack = [.popEvents T e]) (hqueue : m.eventsQueue = e :: rest)
      (hsplit : Split m rest)
      (hpast : ∀ e ∈ triggered m.log, e.when ≤ m.currentTime)
      (hran : e ∈ triggered m.log) (htime : m.currentTime = e.when) (hdue : e.when ≤ T)
      (hbrackets : Brackets (some T) m.log)

theorem Split.mem_iff {m : Machine V} {waiting : List (Event V)} (h : Split m waiting)
    (e : Event V) : e ∈ accepted m.log ↔ e ∈ triggered m.log ∨ e ∈ waiting := by
  rw [← (OrderedList.insertAll_perm Event.when (accepted m.log)).mem_iff, ← h,
    List.mem_append]

theorem Split.ascending {m : Machine V} {waiting : List (Event V)}
    (h : Split m waiting) : Ascending Event.when (triggered m.log ++ waiting) := by
  rw [h]
  exact OrderedList.insertAll_ascending _

theorem Split.nodup {m : Machine V} {waiting : List (Event V)} (h : Split m waiting)
    (hm : History m) : (triggered m.log ++ waiting).Nodup := by
  rw [h]
  exact (OrderedList.insertAll_perm Event.when _).nodup_iff.mpr hm.nodup

/-- In every phase the triggered events are not after the logical time. -/
theorem Phase.past {m : Machine V} (h : Phase m) :
    ∀ e ∈ triggered m.log, e.when ≤ m.currentTime := by
  cases h <;> assumption

/-- In every phase, what was triggered and what waits split the accepted events. -/
theorem Phase.split {m : Machine V} (h : Phase m) : ∃ waiting, Split m waiting := by
  cases h with
  | idle _ hsplit => exact ⟨_, hsplit⟩
  | banging _ _ _ hsplit => exact ⟨_, hsplit⟩
  | popping _ _ rest _ _ hsplit => exact ⟨rest, hsplit⟩

theorem Phase.brackets {m : Machine V} (h : Phase m) :
    ∃ current, Brackets current m.log := by
  cases h with
  | idle _ _ _ _ _ hbrackets => exact ⟨_, hbrackets⟩
  | banging _ _ _ _ _ hbrackets => exact ⟨_, hbrackets⟩
  | popping _ _ _ _ _ _ _ _ _ _ hbrackets => exact ⟨_, hbrackets⟩

/-- The first `loop()` that ends after a triggering is the one that made it. -/
theorem Brackets.first {current : Option Int} {log p q post : List (Obs V)}
    {e : Event V} {T T' t : Int} (h : Brackets current log)
    (hlog : log = p ++ .triggered e T t :: (q ++ .loopDone T' :: post)) :
    T = T' ∨ .loopDone T ∈ q := by
  rcases h p e T t _ hlog with ⟨q₁, q₂, hq, hq₁⟩ | ⟨-, hnone⟩
  · rcases List.append_eq_append_iff.mp hq with ⟨x, hx, hy⟩ | ⟨x, hx, hy⟩
    · cases x with
      | nil => exact Or.inl (by simpa using (List.cons.inj hy).1.symm)
      | cons o os =>
        obtain ⟨ho, -⟩ := List.cons.inj hy
        exact absurd (hx ▸ by simp [ho]) (hq₁ T')
    · cases x with
      | nil => exact Or.inl (by simpa using (List.cons.inj hy).1)
      | cons o os =>
        obtain ⟨ho, -⟩ := List.cons.inj hy
        exact Or.inr (hx ▸ by simp [ho])
  · exact absurd (by simp) (hnone T')

/-- What is in the queue was accepted. -/
theorem Phase.queue_accepted {m : Machine V} (h : Phase m) :
    ∀ e ∈ m.eventsQueue, e ∈ accepted m.log := by
  intro e he
  cases h with
  | idle _ hsplit => exact (hsplit.mem_iff e).mpr (Or.inr he)
  | banging _ _ _ hsplit => exact (hsplit.mem_iff e).mpr (Or.inr he)
  | popping T e' rest _ hqueue hsplit _ hran =>
    rw [hqueue] at he
    rcases List.mem_cons.mp he with rfl | he
    · exact (hsplit.mem_iff e).mpr (Or.inl hran)
    · exact (hsplit.mem_iff e).mpr (Or.inr he)

/-- The phase does not look at the deque of looped nodes or at `should_run_`. -/
theorem Phase.congr {m : Machine V} (h : Phase m) (looped : Lib.Deque NodeId) (run : Bool) :
    Phase { m with loopedNodes := looped, shouldRun := run } := by
  cases h with
  | idle hstack hsplit hpast hfuture hclock hbrackets =>
    exact .idle hstack hsplit hpast hfuture hclock hbrackets
  | banging it endIt hstack hsplit hpast hbrackets =>
    exact .banging it endIt hstack hsplit hpast hbrackets
  | popping T e rest hstack hqueue hsplit hpast hran htime hdue hbrackets =>
    exact .popping T e rest hstack hqueue hsplit hpast hran htime hdue hbrackets

/-- Accepting an event that is after every triggered one: it is sorted into the
waiting part. -/
theorem Split.insert {m : Machine V} {waiting : List (Event V)} (h : Split m waiting)
    {e : Event V} (he : ∀ d ∈ triggered m.log, d.when ≤ e.when) :
    triggered m.log ++ OrderedList.insertContainer Event.ge e waiting =
      insertAll Event.when (accepted m.log ++ [e]) := by
  rw [OrderedList.insertAll_append_singleton, ← h]
  exact (OrderedList.insertContainer_append fun d hd => Event.ge_eq_true.mpr (he d hd)).symm

/-! ## One lemma for each step -/

/-- Neither an acceptance, nor a triggering, nor the end of a `loop()`. -/
structure Neutral (o : Obs V) : Prop where
  accepted : ∀ e, o ≠ .accepted e
  triggered : ∀ e T t, o ≠ .triggered e T t
  loopDone : ∀ T, o ≠ .loopDone T

theorem Neutral.accepted_snoc {o : Obs V} (h : Neutral o) (log : List (Obs V)) :
    Machine.accepted (log ++ [o]) = Machine.accepted log := by
  cases o with
  | accepted e => exact absurd rfl (h.accepted e)
  | _ => simp [Machine.accepted]

theorem Neutral.triggered_snoc {o : Obs V} (h : Neutral o) (log : List (Obs V)) :
    Machine.triggered (log ++ [o]) = Machine.triggered log := by
  cases o with
  | triggered e T t => exact absurd rfl (h.triggered e T t)
  | _ => simp [Machine.triggered]

theorem History.note {m m' : Machine V} {o : Obs V} (h : History m)
    (hlog : m'.log = m.log ++ [o]) (hid : m.nextId ≤ m'.nextId) (ho : Neutral o) :
    History m' := by
  refine ⟨?_, ?_, ?_, ?_, ?_⟩
  · intro e he
    rw [hlog, ho.accepted_snoc] at he
    exact lt_of_lt_of_le (h.ids e he) hid
  · rw [hlog, ho.accepted_snoc]
    exact h.nodup
  · intro e T t hmem
    rw [hlog, List.mem_append, List.mem_singleton] at hmem
    rcases hmem with hmem | hmem
    · exact h.timely e T t hmem
    · exact absurd hmem.symm (ho.triggered e T t)
  · intro pre T hpre
    rw [hlog] at hpre
    exact h.onTime pre T (Lib.prefix_of_snoc_prefix_snoc hpre (ho.loopDone T).symm)
  · intro pre hpre
    rw [hlog] at hpre
    rcases List.prefix_concat_iff.mp hpre with rfl | hpre
    · rw [ho.triggered_snoc, ho.accepted_snoc]
      exact h.causal m.log List.prefix_rfl
    · exact h.causal pre hpre

theorem Phase.note {m : Machine V} {o : Obs V} (h : Phase m) (nextId : Nat)
    (ho : Neutral o) : Phase { m with nextId := nextId, log := m.log ++ [o] } := by
  have hgrow : ∀ waiting, Split m waiting →
      Split { m with nextId := nextId, log := m.log ++ [o] } waiting := by
    intro waiting hsplit
    unfold Split
    rw [ho.triggered_snoc, ho.accepted_snoc]
    exact hsplit
  cases h with
  | idle hstack hsplit hpast hfuture hclock hbrackets =>
    refine .idle hstack (hgrow _ hsplit) ?_ hfuture ?_
      (hbrackets.other ho.triggered ho.loopDone)
    · rwa [ho.triggered_snoc]
    · rw [ho.triggered_snoc]
      exact fun hne => List.mem_append_left _ (hclock hne)
  | banging it endIt hstack hsplit hpast hbrackets =>
    refine .banging it endIt hstack (hgrow _ hsplit) ?_
      (hbrackets.other ho.triggered ho.loopDone)
    rwa [ho.triggered_snoc]
  | popping T d rest hstack hq hsplit hpast hran htime hdue hbrackets =>
    refine .popping T d rest hstack hq (hgrow _ hsplit) ?_ ?_ htime hdue
      (hbrackets.other ho.triggered ho.loopDone)
    · rwa [ho.triggered_snoc]
    · rwa [ho.triggered_snoc]

/-! ## Accepting an event -/

theorem History.accept {m m' : Machine V} {e : Event V} (h : History m)
    (hlog : m'.log = m.log ++ [.accepted e]) (hid : m'.nextId = m.nextId + 1)
    (he : e.id = m.nextId) : History m' := by
  have hfresh : e ∉ accepted m.log := fun hmem => by
    have hlt := h.ids e hmem
    omega
  refine ⟨?_, ?_, ?_, ?_, ?_⟩
  · intro d hd
    rw [hlog, accepted_append, List.mem_append] at hd
    rcases hd with hd | hd
    · have hlt := h.ids d hd
      omega
    · obtain rfl : d = e := by simpa [accepted] using hd
      omega
  · rw [hlog]
    simpa [accepted, List.nodup_append] using
      ⟨h.nodup, fun d hd hde => hfresh (mem_accepted.mpr (hde ▸ hd))⟩
  · intro d T t hmem
    exact h.timely d T t (by simpa [hlog] using hmem)
  · intro pre T hpre
    rw [hlog] at hpre
    exact h.onTime pre T (Lib.prefix_of_snoc_prefix_snoc hpre (by simp))
  · intro pre hpre
    rw [hlog] at hpre
    rcases List.prefix_concat_iff.mp hpre with rfl | hpre
    · intro d hd
      rw [accepted_append]
      exact List.mem_append_left _
        (h.causal m.log List.prefix_rfl d (by simpa [triggered] using hd))
    · exact h.causal pre hpre

theorem Phase.accept {m : Machine V} {e : Event V} (h : Phase m)
    (hlater : m.currentTime < e.when) :
    Phase { m with
      nextId := m.nextId + 1
      eventsQueue := OrderedList.insertContainer Event.ge e m.eventsQueue
      log := m.log ++ [.accepted e] } := by
  have hlast : ∀ d ∈ triggered m.log, d.when ≤ e.when := fun d hd =>
    le_of_lt (lt_of_le_of_lt (h.past d hd) hlater)
  have hgrow : ∀ waiting, Split m waiting →
      triggered (m.log ++ [.accepted e]) ++
        OrderedList.insertContainer Event.ge e waiting =
      insertAll Event.when (accepted (m.log ++ [.accepted e])) := by
    intro waiting hsplit
    simpa [triggered, accepted] using hsplit.insert hlast
  have hpast : ∀ d ∈ triggered (m.log ++ [.accepted e]), d.when ≤ m.currentTime := by
    simpa [triggered] using h.past
  cases h with
  | idle hstack hsplit _ hfuture hclock hbrackets =>
    refine .idle hstack (hgrow _ hsplit) hpast ?_ ?_ (hbrackets.other (by simp) (by simp))
    · intro d hd
      rcases OrderedList.mem_insertContainer.mp hd with rfl | hd
      · exact hlater
      · exact hfuture d hd
    · intro hne
      exact List.mem_append_left _ (hclock (by simpa [triggered] using hne))
  | banging it endIt hstack hsplit _ hbrackets =>
    exact .banging it endIt hstack (hgrow _ hsplit) hpast
      (hbrackets.other (by simp) (by simp))
  | popping T d rest hstack hq hsplit _ hran htime hdue hbrackets =>
    refine .popping T d (OrderedList.insertContainer Event.ge e rest) hstack ?_
      (hgrow _ hsplit) hpast (by simpa [triggered] using hran) htime hdue
      (hbrackets.other (by simp) (by simp))
    have hge : Event.ge e d = true := Event.ge_eq_true.mpr (hlast d hran)
    simp [hq, OrderedList.insertContainer, hge]

/-! ## One lemma for each step -/

/-- `pop_events` at the test of its `while`: no handler runs, and everything that
was triggered was due. -/
structure Looking (T : Int) (m : Machine V) : Prop where
  history : History m
  stack : m.stack = []
  split : Split m m.eventsQueue
  due : ∀ e ∈ triggered m.log, e.when ≤ T
  brackets : Brackets (some T) m.log

/-- The first event is due: its handler runs. -/
theorem Looking.triggers {T : Int} {m : Machine V} {e : Event V} {rest : List (Event V)}
    (h : Looking T m) (hqueue : m.eventsQueue = e :: rest) (hdue : e.when ≤ T)
    (heq : popEvents T m = { m with
      currentTime := e.when
      stack := .popEvents T e :: m.stack
      log := m.log ++ [.triggered e T e.when] }) :
    History (popEvents T m) ∧ Phase (popEvents T m) := by
  have hasc := h.split.ascending
  rw [heq]
  rw [hqueue] at hasc
  have hlast : ∀ d ∈ triggered m.log, d.when ≤ e.when := fun d hd =>
    (List.pairwise_append.mp hasc).2.2 d hd e List.mem_cons_self
  have hsplit : triggered m.log ++ e :: rest = insertAll Event.when (accepted m.log) := by
    rw [← hqueue]
    exact h.split
  constructor
  · refine ⟨?_, ?_, ?_, ?_, ?_⟩
    · simpa [accepted] using h.history.ids
    · simpa [accepted] using h.history.nodup
    · intro d T' t hmem
      rcases List.mem_append.mp hmem with hmem | hmem
      · exact h.history.timely d T' t hmem
      · obtain ⟨rfl, rfl, rfl⟩ := Obs.triggered.inj (List.mem_singleton.mp hmem)
        exact ⟨hdue, rfl⟩
    · intro pre T' hpre
      exact h.history.onTime pre T' (Lib.prefix_of_snoc_prefix_snoc hpre (by simp))
    · intro pre hpre
      rcases List.prefix_concat_iff.mp hpre with rfl | hpre
      · intro d hd
        rw [accepted_append]
        refine List.mem_append_left _ ((h.split.mem_iff d).mpr ?_)
        rw [triggered_append, List.mem_append] at hd
        rcases hd with hd | hd
        · exact Or.inl hd
        · obtain rfl : d = e := by simpa [triggered] using hd
          exact Or.inr (by simp [hqueue])
      · exact h.history.causal pre hpre
  · refine .popping T e rest (by simp [h.stack]) hqueue ?_ ?_ ?_ rfl hdue
      (h.brackets.trigger e e.when)
    · simpa [Split, triggered, accepted] using hsplit
    · intro d hd
      rw [triggered_append, List.mem_append] at hd
      rcases hd with hd | hd
      · exact hlast d hd
      · obtain rfl : d = e := by simpa [triggered] using hd
        exact le_refl _
    · simp [triggered]

/-- Nothing is due: the `loop()` ends. -/
theorem Looking.ends {T : Int} {m : Machine V} (h : Looking T m)
    (hnone : ∀ e rest, m.eventsQueue = e :: rest → T < e.when)
    (heq : popEvents T m = { m with currentTime := T, log := m.log ++ [.loopDone T] }) :
    History (popEvents T m) ∧ Phase (popEvents T m) := by
  have hasc := h.split.ascending
  rw [heq]
  have hfuture : ∀ e ∈ m.eventsQueue, T < e.when := by
    intro e he
    cases hqueue : m.eventsQueue with
    | nil => simp [hqueue] at he
    | cons d rest =>
      have hd : T < d.when := hnone d rest hqueue
      rw [hqueue] at he hasc
      rcases List.mem_cons.mp he with rfl | he
      · exact hd
      · have hde : d.when ≤ e.when :=
          (List.pairwise_cons.mp (List.pairwise_append.mp hasc).2.1).1 e he
        omega
  have hontime : ∀ e ∈ accepted m.log, e.when ≤ T → e ∈ triggered m.log := by
    intro e he hle
    rcases (h.split.mem_iff e).mp he with he | he
    · exact he
    · have hlt := hfuture e he
      omega
  constructor
  · refine ⟨?_, ?_, ?_, ?_, ?_⟩
    · simpa [accepted] using h.history.ids
    · simpa [accepted] using h.history.nodup
    · intro d T' t hmem
      exact h.history.timely d T' t (by simpa using hmem)
    · intro pre T' hpre
      rcases List.prefix_concat_iff.mp hpre with heq' | hpre
      · obtain ⟨rfl, hT⟩ := Lib.snoc_inj heq'
        obtain rfl : T' = T := by simpa using hT
        exact hontime
      · exact h.history.onTime pre T' hpre
    · intro pre hpre
      rcases List.prefix_concat_iff.mp hpre with rfl | hpre
      · intro d hd
        simpa [accepted] using
          h.history.causal m.log List.prefix_rfl d (by simpa [triggered] using hd)
      · exact h.history.causal pre hpre
  · refine .idle h.stack ?_ ?_ hfuture (fun _ => by simp) h.brackets.done
    · simpa [Split, triggered, accepted] using h.split
    · simpa [triggered] using h.due

/-- From the test of the `while`, `pop_events` either runs the handler of an event
that is due, which is then the last triggered one, or ends the `loop()` with
nothing due left. -/
theorem popEvents_inv {T : Int} {m : Machine V} (h : Looking T m) :
    History (popEvents T m) ∧ Phase (popEvents T m) := by
  rcases popEvents_cases T m with ⟨e, rest, hqueue, hdue, heq⟩ | ⟨hnone, heq⟩
  · exact h.triggers hqueue hdue heq
  · exact h.ends hnone heq

theorem popEvents_lastDone {T : Int} {m : Machine V} (hstack : m.stack = []) :
    LastDone (popEvents T m) := by
  intro pre T' hlog
  rcases popEvents_cases T m with ⟨e, rest, -, -, heq⟩ | ⟨-, heq⟩
  · rw [heq] at hlog
    exact absurd (Lib.snoc_inj hlog).2 (by simp)
  · rw [heq] at hlog ⊢
    exact ⟨hstack, by simpa using (Lib.snoc_inj hlog).2⟩

theorem triggerLoopEvents_lastDone {it endIt : Nat} {m m' : Machine V}
    (hstep : triggerLoopEvents it endIt m = .ok m') (hstack : m.stack = []) :
    LastDone m' := by
  rcases triggerLoopEvents_cases hstep with ⟨node, -, -, rfl⟩ | ⟨-, rfl⟩
  · intro pre T hlog
    exact absurd (Lib.snoc_inj hlog).2 (by simp)
  · exact popEvents_lastDone hstack

/-- `trigger_loop_events`, with the logical time at the elapsed time. -/
theorem triggerLoopEvents_inv {it endIt : Nat} {m m' : Machine V}
    (hstep : triggerLoopEvents it endIt m = .ok m')
    (hhist : History m) (hstack : m.stack = []) (hsplit : Split m m.eventsQueue)
    (hpast : ∀ e ∈ triggered m.log, e.when ≤ m.currentTime)
    (hbrackets : Brackets none m.log) : History m' ∧ Phase m' := by
  rcases triggerLoopEvents_cases hstep with ⟨node, -, -, rfl⟩ | ⟨-, rfl⟩
  · have hneutral : Neutral (.looped node : Obs V) := ⟨by simp, by simp, by simp⟩
    refine ⟨hhist.note rfl (Nat.le_refl _) hneutral, ?_⟩
    refine .banging it endIt (by simp [hstack]) ?_ ?_ (hbrackets.other (by simp) (by simp))
    · simpa [Split, triggered, accepted] using hsplit
    · simpa [triggered] using hpast
  · exact popEvents_inv ⟨hhist, hstack, hsplit, hpast, hbrackets.start _⟩

/-- `loop()`: the elapsed time is not before any earlier one, so not before any
triggered event. -/
theorem loop_inv {m m' : Machine V} {elapsed : Int} (h : History m) (hp : Phase m)
    (hmono : ∀ earlier, .loopDone earlier ∈ m.log → earlier ≤ elapsed)
    (hstep : m.loop elapsed = .ok m') : History m' ∧ Phase m' := by
  obtain ⟨hstack, hloop⟩ := loop_cases hstep
  cases hp with
  | idle _ hsplit hpast _ hclock hbrackets =>
    refine triggerLoopEvents_inv hloop
      ⟨h.ids, h.nodup, h.timely, h.onTime, h.causal⟩ hstack hsplit ?_ hbrackets
    intro e he
    have hne : triggered m.log ≠ [] := List.ne_nil_of_mem he
    exact le_trans (hpast e he) (hmono _ (hclock hne))
  | banging it endIt hstack' => simp [hstack] at hstack'
  | popping T e rest hstack' => simp [hstack] at hstack'

section

variable [DecidableEq V]

/-- `register_event`, from a command, a looped node or a handler. -/
theorem registerEvent_inv {m : Machine V} (h : History m) (hp : Phase m) (when : Int)
    (node : NodeId) (forced : Bool) (parameter : V) :
    History (m.registerEvent when node forced parameter) ∧
      Phase (m.registerEvent when node forced parameter) := by
  rcases registerEvent_cases m when node forced parameter with
    ⟨hlater, heq⟩ | ⟨o, ho, heq⟩
  · have hqueue : newEvent m when node forced parameter ∉ m.eventsQueue := fun hmem =>
      Nat.lt_irrefl _ (h.ids _ (hp.queue_accepted _ hmem))
    rw [heq, OrderedList.push_of_not_mem hqueue]
    exact ⟨h.accept rfl rfl rfl, hp.accept hlater⟩
  · have hneutral : Neutral o := by
      rcases ho with rfl | rfl <;> exact ⟨by simp, by simp, by simp⟩
    rw [heq]
    exact ⟨h.note rfl (Nat.le_succ _) hneutral, hp.note (m.nextId + 1) hneutral⟩

/-- A handler returns: to the next looped node, or to the next event. -/
theorem handlerReturns_inv {m m' : Machine V} (h : History m) (hp : Phase m)
    (hstep : m.handlerReturns = .ok m') : History m' ∧ Phase m' ∧ LastDone m' := by
  rcases handlerReturns_cases hstep with
    ⟨it, endIt, stack, hstack, hnext⟩ | ⟨T, e, stack, hstack, rfl⟩ |
    ⟨node, e, stack, it, hstack, -, -⟩
  · cases hp with
    | idle hstack' => simp [hstack] at hstack'
    | banging it' endIt' hstack' hsplit hpast hbrackets =>
      obtain ⟨-, rfl⟩ : _ ∧ stack = [] := by simpa [hstack] using hstack'
      obtain ⟨hhist, hphase⟩ := triggerLoopEvents_inv hnext
        ⟨h.ids, h.nodup, h.timely, h.onTime, h.causal⟩ rfl hsplit hpast hbrackets
      exact ⟨hhist, hphase, triggerLoopEvents_lastDone hnext rfl⟩
    | popping T e rest hstack' => simp [hstack] at hstack'
  · cases hp with
    | idle hstack' => simp [hstack] at hstack'
    | banging it' endIt' hstack' => simp [hstack] at hstack'
    | popping T' e' rest hstack' hqueue hsplit hpast hran htime hdue hbrackets =>
      -- the head is the event that ran, so `pop()` removes exactly this event
      obtain ⟨⟨rfl, rfl⟩, rfl⟩ : (T = T' ∧ e = e') ∧ stack = [] := by
        simpa [hstack] using hstack'
      have hlooking : Looking T { m with stack := [], eventsQueue := m.eventsQueue.tail } := by
        refine ⟨⟨h.ids, h.nodup, h.timely, h.onTime, h.causal⟩, rfl, ?_, ?_, hbrackets⟩
        · rw [hqueue]
          exact hsplit
        · intro d hd
          have hle := hpast d hd
          omega
      obtain ⟨hhist, hphase⟩ := popEvents_inv hlooking
      exact ⟨hhist, hphase, popEvents_lastDone rfl⟩
  · cases hp with
    | idle hstack' => simp [hstack] at hstack'
    | banging it' endIt' hstack' => simp [hstack] at hstack'
    | popping T e rest hstack' => simp [hstack] at hstack'

/-! ## Runs -/

/-- A step of a run in which no handler cancels events and the elapsed times of
successive `loop()` do not decrease. -/
structure DeliveryStep (m : Machine V) (a : Action V) (m' : Machine V) : Prop where
  step : m.step a = .ok m'
  noCancel : ∀ node, a ≠ .freeEventsFor node
  elapsedMono : ∀ elapsed, a = .loop elapsed →
    ∀ earlier, .loopDone earlier ∈ m.log → earlier ≤ elapsed

/-- The invariant of such runs. -/
structure Delivering (m : Machine V) : Prop where
  history : History m
  phase : Phase m
  lastDone : LastDone m

omit [DecidableEq V] in
theorem init_delivering (shouldRun : Bool) : Delivering (init shouldRun : Machine V) := by
  refine ⟨⟨by simp [init], by simp [init], by simp [init], ?_, ?_⟩, ?_, ?_⟩
  · intro pre T hpre
    simp [init] at hpre
  · intro pre hpre e he
    obtain rfl : pre = [] := by simpa [init] using hpre
    simp at he
  · refine .idle rfl rfl (by simp [init]) (by simp [init]) (by simp [init]) ?_
    intro p e T t q hlog
    simp [init] at hlog
  · intro pre T hlog
    simp [init] at hlog

theorem deliveryStep_delivering {m m' : Machine V} {a : Action V} (h : Delivering m)
    (hstep : DeliveryStep m a m') : Delivering m' := by
  obtain ⟨hrun, hcancel, hmono⟩ := hstep
  obtain ⟨hhist, hphase, hlast⟩ := h
  cases a with
  | registerEvent when node forced parameter =>
    obtain rfl := Except.ok.inj hrun
    obtain ⟨hhist', hphase'⟩ := registerEvent_inv hhist hphase when node forced parameter
    refine ⟨hhist', hphase', ?_⟩
    rcases registerEvent_cases m when node forced parameter with ⟨-, heq⟩ | ⟨o, ho, heq⟩
    · rw [heq]
      intro pre T hlog
      exact absurd (Lib.snoc_inj hlog).2 (by simp)
    · rw [heq]
      intro pre T hlog
      rcases ho with rfl | rfl <;> exact absurd (Lib.snoc_inj hlog).2 (by simp)
  | freeEventsFor node => exact absurd rfl (hcancel node)
  | registerLoopedNode node =>
    obtain rfl := Except.ok.inj hrun
    exact ⟨⟨hhist.ids, hhist.nodup, hhist.timely, hhist.onTime, hhist.causal⟩,
      hphase.congr _ m.shouldRun, hlast⟩
  | freeLoopedNode node =>
    obtain rfl := Except.ok.inj hrun
    exact ⟨⟨hhist.ids, hhist.nodup, hhist.timely, hhist.onTime, hhist.causal⟩,
      hphase.congr _ m.shouldRun, hlast⟩
  | shouldRun value =>
    obtain rfl := Except.ok.inj hrun
    exact ⟨⟨hhist.ids, hhist.nodup, hhist.timely, hhist.onTime, hhist.causal⟩,
      hphase.congr m.loopedNodes value, hlast⟩
  | loop elapsed =>
    obtain ⟨hstack, hloop⟩ := loop_cases hrun
    obtain ⟨hhist', hphase'⟩ := loop_inv hhist hphase (hmono elapsed rfl) hrun
    exact ⟨hhist', hphase', triggerLoopEvents_lastDone hloop hstack⟩
  | handlerReturns =>
    obtain ⟨hhist', hphase', hlast'⟩ := handlerReturns_inv hhist hphase hrun
    exact ⟨hhist', hphase', hlast'⟩

/-! ## Delivery -/

/-- What a run has delivered. -/
structure Delivery (m : Machine V) : Prop where
  /-- an event accepted before a `loop()` ends, and due by its elapsed time, has
  been triggered exactly once by then, and is never triggered again -/
  once : ∀ pre T, pre ++ [.loopDone T] <+: m.log →
    ∀ e ∈ accepted pre, e.when ≤ T →
      (triggered pre).count e = 1 ∧ (triggered m.log).count e = 1
  /-- the `loop()` that triggers it is the first one that ends after the event was
  accepted with an elapsed time not below `when` -/
  firstLoop : ∀ pre mid T e,
    pre ++ .accepted e :: (mid ++ [.loopDone T]) <+: m.log → e.when ≤ T →
    (∀ T', .loopDone T' ∈ mid → T' < e.when) → .triggered e T e.when ∈ mid
  /-- never in a `loop()` whose elapsed time is below `when`; and the logical time
  when the handler starts is `when` -/
  notEarly : ∀ e T t, .triggered e T t ∈ m.log → e.when ≤ T ∧ t = e.when
  /-- the logical time stays `when` as long as the handler runs -/
  handlerTime : ∀ T e stack, m.stack = .popEvents T e :: stack → m.currentTime = e.when
  /-- a `loop()` in progress ends, if the handlers do -/
  ends : ∀ T e stack, m.stack = .popEvents T e :: stack →
    Acc (fun m₂ m₁ : Machine V => Round m₁ m₂) m
  /-- over the whole run, triggered events have ascending times -/
  ascending : Ascending Event.when (triggered m.log)
  /-- events with equal times are triggered in the order they were registered -/
  ties : ∀ t, (triggered m.log).filter (fun e => decide (e.when = t)) <+:
    (accepted m.log).filter fun e => decide (e.when = t)
  /-- when `pop_events` ends, the queue holds exactly the accepted events that are
  after the elapsed time, and the logical time is the elapsed time -/
  afterLoop : ∀ pre T, m.log = pre ++ [.loopDone T] →
    m.currentTime = T ∧ m.eventsQueue.Nodup ∧
      ∀ e, e ∈ m.eventsQueue ↔ e ∈ accepted m.log ∧ T < e.when

theorem Delivering.delivery {m : Machine V} (h : Delivering m) : Delivery m := by
  obtain ⟨hhist, hphase, hlast⟩ := h
  obtain ⟨waiting, hsplit⟩ := hphase.split
  have hnodup : (triggered m.log).Nodup := (List.nodup_append.mp (hsplit.nodup hhist)).1
  refine ⟨?_, ?_, hhist.timely, ?_, ?_, ?_, ?_, ?_⟩
  · intro pre T hpre e he hle
    obtain ⟨post, hpost⟩ := hpre
    have hmem := hhist.onTime pre T ⟨post, hpost⟩ e he hle
    have hsub : List.Sublist (triggered pre) (triggered m.log) := by
      rw [← hpost]
      simp
    exact ⟨List.count_eq_one_of_mem (hnodup.sublist hsub) hmem,
      List.count_eq_one_of_mem hnodup (hsub.subset hmem)⟩
  · intro pre mid T e hpre hle hfirst
    obtain ⟨post, hpost⟩ := hpre
    have hlog : m.log = (pre ++ .accepted e :: mid) ++ .loopDone T :: post := by
      rw [← hpost]
      simp
    have hran : e ∈ triggered (pre ++ .accepted e :: mid) :=
      hhist.onTime _ T ⟨post, by simpa using hlog.symm⟩ e (by simp) hle
    -- not before it was accepted: that would make two acceptances
    have hnotBefore : e ∉ triggered pre := by
      intro hmem
      have hacc := hhist.causal pre ⟨_, by simpa using hlog.symm⟩ e hmem
      have htwice := hhist.nodup
      rw [hlog] at htwice
      simp only [accepted_append, List.append_assoc, accepted] at htwice
      exact (List.nodup_append.mp htwice).2.2 e hacc e (by simp) rfl
    have hmid : e ∈ triggered mid := by
      simpa [triggered, hnotBefore] using hran
    obtain ⟨T', t, htrig⟩ := mem_triggered.mp hmid
    obtain ⟨mid₁, mid₂, rfl⟩ := List.append_of_mem htrig
    obtain ⟨hdue, rfl⟩ := hhist.timely e T' t (by rw [hlog]; simp)
    obtain ⟨current, hbrackets⟩ := hphase.brackets
    have hform : m.log = (pre ++ .accepted e :: mid₁) ++
        .triggered e T' e.when :: (mid₂ ++ .loopDone T :: post) := by
      rw [hlog]
      simp
    rcases hbrackets.first hform with rfl | hbetween
    · exact htrig
    · have hlt := hfirst T' (by simp [hbetween])
      omega
  · intro T e stack hstack
    cases hphase with
    | idle hstack' => simp [hstack] at hstack'
    | banging it endIt hstack' => simp [hstack] at hstack'
    | popping T' e' rest hstack' _ _ _ _ htime =>
      obtain ⟨⟨-, rfl⟩, -⟩ : (T = T' ∧ e = e') ∧ stack = [] := by
        simpa [hstack] using hstack'
      exact htime
  · intro T e stack hstack
    cases hphase with
    | idle hstack' => simp [hstack] at hstack'
    | banging it endIt hstack' => simp [hstack] at hstack'
    | popping T' e' rest hstack' hqueue _ _ _ htime hdue =>
      exact pop_ends ⟨hstack', ⟨rest, hqueue⟩, htime, hdue⟩
  · exact (List.pairwise_append.mp hsplit.ascending).1
  · intro t
    rw [← OrderedList.insertAll_filter Event.when (accepted m.log) t, ← hsplit,
      List.filter_append]
    exact List.prefix_append _ _
  · intro pre T hlog
    obtain ⟨hstack, htime⟩ := hlast pre T hlog
    cases hphase with
    | idle _ hsplit hpast hfuture _ _ =>
      refine ⟨htime, (List.nodup_append.mp (hsplit.nodup hhist)).2.1, fun e => ?_⟩
      rw [hsplit.mem_iff e]
      constructor
      · exact fun he => ⟨Or.inr he, htime ▸ hfuture e he⟩
      · rintro ⟨he | he, hlt⟩
        · have hle := hpast e he
          omega
        · exact he
    | banging it endIt hstack' => simp [hstack] at hstack'
    | popping T' e rest hstack' => simp [hstack] at hstack'

/-- Every run of a new worker whose handlers do not cancel events delivers. -/
theorem events_delivered {shouldRun : Bool} {acts : List (Action V)} {m : Machine V}
    (h : Lib.Run DeliveryStep (init shouldRun) acts m) : Delivery m :=
  (h.invariant Delivering (fun _ _ _ hm hstep => deliveryStep_delivering hm hstep)
    (init_delivering shouldRun)).delivery

/-- A handler that registers two more events: one is due in the same `loop()`, one
is not. -/
theorem events_delivered_in_one_loop :
    ∃ m : Machine Unit, (triggered m.log).map Event.when = [3, 4] ∧
      m.eventsQueue.map Event.when = [9] ∧ Delivery m := by
  have start : Lib.Run DeliveryStep (init true : Machine Unit) [] (init true) := .nil
  have command := start.snoc
    (⟨rfl, by simp, by simp⟩ : DeliveryStep _ (.registerEvent 3 0 false ()) _)
  have loop := command.snoc
    (⟨rfl, by simp, by simp [registerEvent, init]⟩ : DeliveryStep _ (.loop 5) _)
  have handler := (loop.snoc
    (⟨rfl, by simp, by simp⟩ : DeliveryStep _ (.registerEvent 4 1 false ()) _)).snoc
    (⟨rfl, by simp, by simp⟩ : DeliveryStep _ (.registerEvent 9 0 false ()) _)
  have returned := (handler.snoc
    (⟨rfl, by simp, by simp⟩ : DeliveryStep _ .handlerReturns _)).snoc
    (⟨rfl, by simp, by simp⟩ : DeliveryStep _ .handlerReturns _)
  exact ⟨_, by decide, by decide, events_delivered returned⟩

end

end Rubyk.Machine
