/-
  Objects/MetroBeats.lean --- the logical times at which a metronome beats.

  WHY IT DOES NOT DRIFT.  `pop_events` sets the logical time back to that of the event
  it triggers, and `bang` registers the next beat from there.  So beat `k` comes at
  `t0 + k * d` however late the loop is, and a loop triggers every beat up to its own
  elapsed time (`horizon`) before it ends.
-/
import Rubyk.Objects.MetroPending
import Mathlib.Tactic.Ring

set_option autoImplicit false

namespace Rubyk

namespace Machine

variable {V : Type} {m m' : Machine V}

/-! ## The loop in progress -/

/-- The elapsed time of the newest `loop()`, while and after it runs. -/
def horizon (m : Machine V) : Int :=
  match m.stack.getLast? with
  | some (.popEvents realTime _) => realTime
  | _ => m.currentTime

/-- A `loop()` that has just ended leaves its elapsed time behind. -/
def Settled (m : Machine V) : Prop :=
  ∀ T, m.log.getLast? = some (.loopDone T) → m.stack = [] ∧ m.currentTime = T

theorem horizon_nil (h : m.stack = []) : horizon m = m.currentTime := by
  simp [horizon, h]

theorem horizon_freeEventsFor {stack : List (Frame V)} {node : NodeId} {e : Event V}
    (hstack : m'.stack = .freeEventsFor node e :: stack) (hm : m.stack = stack)
    (htime : m'.currentTime = m.currentTime) : horizon m' = horizon m := by
  unfold horizon
  rw [hstack, hm, htime]
  cases stack with
  | nil => rfl
  | cons f fs => rw [List.getLast?_cons_cons]

theorem settled_of_last {o : Obs V} (hlast : m.log.getLast? = some o)
    (ho : ∀ T, o ≠ .loopDone T) : Settled m := by
  intro T hT
  rw [hlast] at hT
  exact absurd (Option.some.inj hT) (ho T)

theorem popEvents_horizon (hstack : m.stack = []) (T : Int) :
    horizon (popEvents T m) = T ∧ Settled (popEvents T m) := by
  rcases popEvents_cases T m with ⟨e, rest, -, -, heq⟩ | ⟨-, heq⟩
  · rw [heq]
    exact ⟨by simp [horizon, hstack], settled_of_last List.getLast?_concat (by simp)⟩
  · rw [heq]
    refine ⟨by simp [horizon, hstack], fun T' hT' => ⟨hstack, ?_⟩⟩
    simpa using hT'

theorem triggerLoopEvents_horizon {it endIt : Nat} (hstack : m.stack = [])
    (hm' : triggerLoopEvents it endIt m = .ok m') :
    horizon m' = m.currentTime ∧ Settled m' := by
  rcases triggerLoopEvents_cases hm' with ⟨node, -, -, rfl⟩ | ⟨-, rfl⟩
  · exact ⟨by simp [horizon, hstack], settled_of_last List.getLast?_concat (by simp)⟩
  · exact popEvents_horizon hstack m.currentTime

variable [DecidableEq V]

theorem freeEventsFor_horizon (node : NodeId) (it : List (Event V)) (hsettled : Settled m) :
    horizon (freeEventsFor node it m) = horizon m ∧ Settled (freeEventsFor node it m) := by
  suffices hsame : (freeEventsFor node it m).currentTime = m.currentTime ∧
      horizon (freeEventsFor node it m) = horizon m ∧ Settled (freeEventsFor node it m) from hsame.2
  refine freeEventsFor_induct
    (P := fun m' => m'.currentTime = m.currentTime ∧ horizon m' = horizon m ∧ Settled m')
    ?_ ?_ ⟨rfl, rfl, hsettled⟩
  · rintro m' e - - ⟨htime, hhorizon, -⟩ -
    refine ⟨htime, ?_, settled_of_last (o := .forced e) (by simp) (by simp)⟩
    rw [← hhorizon]
    exact horizon_freeEventsFor rfl rfl rfl
  · rintro m' e - - ⟨htime, hhorizon, -⟩
    exact ⟨htime, hhorizon, settled_of_last (o := .freed e) (by simp) (by simp)⟩

/-- Only a new `loop()` moves the horizon. -/
theorem step_horizon {a : Action V} (h : Sane m) (hsettled : Settled m)
    (hm' : step m a = .ok m') :
    Settled m' ∧ (horizon m' = horizon m ∨
      ∃ elapsed, a = .loop elapsed ∧ m.stack = [] ∧ horizon m' = elapsed) := by
  cases a with
  | registerEvent when node forced parameter =>
    obtain rfl := Except.ok.inj hm'
    rcases registerEvent_cases m when node forced parameter with ⟨-, heq⟩ | ⟨o, ho, heq⟩
    · rw [heq]
      exact ⟨settled_of_last List.getLast?_concat (by simp), Or.inl rfl⟩
    · rw [heq]
      refine ⟨settled_of_last List.getLast?_concat ?_, Or.inl rfl⟩
      rcases ho with rfl | rfl <;> simp
  | freeEventsFor node =>
    obtain rfl := Except.ok.inj hm'
    obtain ⟨hhorizon, hdone⟩ := freeEventsFor_horizon node _ hsettled
    exact ⟨hdone, Or.inl hhorizon⟩
  | registerLoopedNode node =>
    obtain rfl := Except.ok.inj hm'
    exact ⟨hsettled, Or.inl rfl⟩
  | freeLoopedNode node =>
    obtain rfl := Except.ok.inj hm'
    exact ⟨hsettled, Or.inl rfl⟩
  | shouldRun value =>
    obtain rfl := Except.ok.inj hm'
    exact ⟨hsettled, Or.inl rfl⟩
  | loop elapsed =>
    obtain ⟨hstack, hloop⟩ := loop_cases hm'
    obtain ⟨hhorizon, hdone⟩ := triggerLoopEvents_horizon
      (m := { m with currentTime := elapsed }) hstack hloop
    exact ⟨hdone, Or.inr ⟨elapsed, rfl, hstack, hhorizon⟩⟩
  | handlerReturns =>
    rcases handlerReturns_cases hm' with ⟨it, endIt, stack, hstack, hloop⟩ |
      ⟨T, e, stack, hstack, rfl⟩ | ⟨node, e, stack, it, hstack, -, rfl⟩
    · obtain rfl : stack = [] := h.stack_eq_nil hstack (by simp)
      obtain ⟨hhorizon, hdone⟩ := triggerLoopEvents_horizon (m := { m with stack := [] }) rfl hloop
      refine ⟨hdone, Or.inl ?_⟩
      rw [hhorizon]
      simp [horizon, hstack]
    · obtain rfl : stack = [] := h.stack_eq_nil hstack (by simp)
      obtain ⟨hhorizon, hdone⟩ := popEvents_horizon
        (m := { m with stack := [], eventsQueue := m.eventsQueue.tail }) rfl T
      refine ⟨hdone, Or.inl ?_⟩
      rw [hhorizon]
      simp [horizon, hstack]
    · have hmid : Settled { m with stack := stack, eventsQueue := m.eventsQueue.erase e } := by
        intro T hT
        have hnil := (hsettled T hT).1
        rw [hstack] at hnil
        cases hnil
      obtain ⟨hhorizon, hdone⟩ := freeEventsFor_horizon node it hmid
      refine ⟨hdone, Or.inl ?_⟩
      have hback : horizon m =
          horizon { m with stack := stack, eventsQueue := m.eventsQueue.erase e } :=
        horizon_freeEventsFor hstack rfl rfl
      rw [hhorizon, hback]

/-- The logical time never runs ahead of the loop. -/
theorem Hosting.currentTime_le_horizon {me : NodeId} (h : Hosting me m) :
    m.currentTime ≤ horizon m := by
  unfold horizon
  split
  · rename_i T e hlast
    have hmem : .popEvents T e ∈ m.stack := List.mem_of_getLast? hlast
    rw [(h.sane.head T e hmem).1]
    exact h.realTime T e hmem
  · exact le_refl _

end Machine

namespace Metro

open Machine

variable {V : Type} [DecidableEq V] {me : NodeId} {gNilValue : V} {w w' : Hosted V Metro}

/-! ## The beats -/

/-- One step in which nobody calls a method of the metronome, and time does not go
back from loop to loop. -/
def undisturbed (me : NodeId) (gNilValue : V) (w : Hosted V Metro) :
    Action V → Except Fault (Hosted V Metro)
  | .loop elapsed =>
      if w.machine.currentTime ≤ elapsed then step me gNilValue w (.worker (.loop elapsed))
      else .error .notEnabled
  | a => step me gNilValue w (.worker a)

/-- `t0 + k * d` for `k < n`. -/
def beats (t0 d : Int) (n : Nat) : List Int := (List.range n).map fun k => t0 + k * d

/-- The beats from `t0` on every `d` up to `T`, each once and in order. -/
def OnTime (t0 d T : Int) (sent : List Int) : Prop :=
  ∃ n : Nat, sent = beats t0 d (n + 1) ∧ t0 + n * d ≤ T ∧ T < t0 + (n + 1) * d

/-- No beat that waits is taken by the `pop()` of another event. -/
def KeepsWaiting (me : NodeId) (w : Hosted V Metro) (a : Action V) : Prop :=
  dropped me w.machine a = []

theorem beats_succ (t0 d : Int) (n : Nat) : beats t0 d (n + 1) = beats t0 d n ++ [t0 + n * d] := by
  simp [beats, List.range_succ]

theorem undisturbed_cases {a : Action V} (h : undisturbed me gNilValue w a = .ok w') :
    (∀ elapsed, a = .loop elapsed → w.machine.currentTime ≤ elapsed) ∧ a ≠ .shouldRun false ∧
      foreign me a = true ∧ ∃ m, w.machine.step a = .ok m ∧
        w' = Hosted.wake (methods me gNilValue) (woken me w.machine a m)
          { w with machine := m } := by
  have hboth : (∀ elapsed, a = .loop elapsed → w.machine.currentTime ≤ elapsed) ∧
      step me gNilValue w (.worker a) = .ok w' := by
    cases a with
    | loop elapsed =>
      simp only [undisturbed] at h
      split at h
      · rename_i hle
        refine ⟨fun elapsed' heq => ?_, h⟩
        obtain rfl := Action.loop.inj heq
        exact hle
      · cases h
    | _ => exact ⟨by simp, h⟩
  obtain ⟨hne, hstep⟩ := step_cases hboth.2
  obtain ⟨hforeign, hm⟩ := Hosted.step_worker hstep
  exact ⟨hboth.1, fun ha => hne (congrArg _ ha), hforeign, hm⟩

/-- A metronome that was started at `t0` and beats every `d`. -/
structure Beating (me : NodeId) (t0 d : Int) (w : Hosted V Metro) : Prop where
  ticking : Ticking me w
  settled : Settled w.machine
  run : w.object.run = true
  period : period w.object = d
  beat : ∃ (n : Nat) (e : Event V), w.object.sent = beats t0 d (n + 1) ∧
    t0 + n * d ≤ horizon w.machine ∧ mine me w.machine = [e] ∧ e.when = t0 + (n + 1) * d

/-- `bang` at the time of beat `n`, when no later beat waits yet. -/
theorem beating_bang {t0 d : Int} {n : Nat} (h : Ticking me w) (hrun : w.object.run = true)
    (hperiod : Metro.period w.object = d) (hd : 1 ≤ d) (hnone : mine me w.machine = [])
    (hsent : w.object.sent = beats t0 d n) (htime : w.machine.currentTime = t0 + n * d) :
    Beating me t0 d (bang me gNilValue w) := by
  have hticking := (h.bang gNilValue).1
  have hmine := h.mine_bangMeInPeriod gNilValue
  rw [hnone, hperiod, if_pos hd] at hmine
  have heq : bang me gNilValue w =
      { bangMeInPeriod me gNilValue w with
        object := { w.object with
          sent := w.object.sent ++ [(bangMeInPeriod me gNilValue w).machine.currentTime] } } := by
    simp [bang, hrun]
  have hsame : (bangMeInPeriod me gNilValue w).machine.currentTime = w.machine.currentTime ∧
      horizon (bangMeInPeriod me gNilValue w).machine = horizon w.machine ∧
      Settled (bangMeInPeriod me gNilValue w).machine := by
    unfold bangMeInPeriod bangMeIn
    rcases registerEvent_cases w.machine
      (w.machine.currentTime + toTimeT (oneMinute / w.object.tempo)) me false gNilValue with
      ⟨-, hreg⟩ | ⟨o, ho, hreg⟩
    · rw [hreg]
      exact ⟨rfl, rfl, settled_of_last List.getLast?_concat (by simp)⟩
    · rw [hreg]
      refine ⟨rfl, rfl, settled_of_last List.getLast?_concat ?_⟩
      rcases ho with rfl | rfl <;> simp
  obtain ⟨hcurrent, hhorizon, hsettled⟩ := hsame
  rw [heq] at hticking ⊢
  refine ⟨hticking, hsettled, hrun, hperiod, n, _, ?_, ?_, List.perm_singleton.mp hmine, ?_⟩
  · change w.object.sent ++ [_] = _
    rw [hsent, beats_succ, hcurrent, htime]
  · change _ ≤ horizon (bangMeInPeriod me gNilValue w).machine
    rw [hhorizon, ← htime]
    exact h.hosting.currentTime_le_horizon
  · rw [newEvent_when, htime]
    ring

/-- `start()` beats at once. -/
theorem beating_start {t0 : Int} (gNilValue : V) (h : Ticking me w) (hd : 1 ≤ Metro.period w.object)
    (hnone : mine me w.machine = []) (hsent : w.object.sent = [])
    (htime : w.machine.currentTime = t0) :
    Beating me t0 (Metro.period w.object) (start me gNilValue w) := by
  have hstarted : Ticking me { w with object := { w.object with run := true, started := true } } :=
    h.of_tempo rfl rfl
  exact beating_bang (n := 0) hstarted rfl rfl hd hnone (by simp [beats, hsent]) (by simp [htime])

/-- What others do keeps the beat, as long as they leave the waiting event alone. -/
theorem Beating.step {t0 d : Int} {a : Action V} (h : Beating me t0 d w) (hd : 1 ≤ d)
    (hkeeps : KeepsWaiting me w a) (hstep : undisturbed me gNilValue w a = .ok w') :
    Beating me t0 d w' := by
  obtain ⟨hforward, hne, hforeign, m, hm, rfl⟩ := undisturbed_cases hstep
  obtain ⟨n, e, hsent, hle, hwaits, hwhen⟩ := h.beat
  obtain ⟨hhost, hmine⟩ := h.ticking.hosting.step hforeign hm
  obtain ⟨hsettled, hmoves⟩ := step_horizon h.ticking.hosting.sane h.settled hm
  have hhorizon : horizon w.machine ≤ horizon m := by
    rcases hmoves with heq | ⟨elapsed, ha, hstack, heq⟩
    · exact heq.ge
    · rw [heq, horizon_nil hstack]
      exact hforward elapsed ha
  rw [hkeeps, hwaits, List.nil_append] at hmine
  have hmid : Ticking me { w with machine := m } := by
    refine ⟨hhost, shouldRun_step h.ticking.runs hne hm, fun c hc => ?_, fun _ => ?_⟩
    · refine h.ticking.unforced c ?_
      rw [hwaits, hmine]
      exact List.mem_append_right _ hc
    · exact h.ticking.slow (by rw [hwaits]; simp)
  cases hwoken : woken me w.machine a m with
  | none =>
    rw [hwoken, Option.toList_none, List.nil_append] at hmine
    exact ⟨hmid, hsettled, h.run, h.period, n, e, hsent, hle.trans hhorizon, hmine.symm, hwhen⟩
  | some c =>
    -- the waiting beat is triggered, at its own time
    rw [hwoken, Option.toList_some] at hmine
    obtain ⟨rfl, hnone⟩ := List.cons.inj hmine
    obtain ⟨-, -, T, stack, hstack⟩ := woken_eq_some hwoken
    have htime : m.currentTime = e.when := (hhost.sane.head T e (by simp [hstack])).1
    refine beating_bang (n := n + 1) hmid h.run h.period hd hnone.symm hsent ?_
    change m.currentTime = _
    rw [htime, hwhen]
    push_cast
    ring

/-! ## Whole runs -/

/-- A metronome that is not started yet has no beat, whatever others do. -/
structure Silent (me : NodeId) (o : Metro) (w : Hosted V Metro) : Prop where
  ticking : Ticking me w
  object : w.object = o
  noBeat : mine me w.machine = []

theorem Silent.step {o : Metro} {a : Action V} (h : Silent me o w)
    (hstep : undisturbed me gNilValue w a = .ok w') : Silent me o w' := by
  obtain ⟨-, hne, hforeign, m, hm, rfl⟩ := undisturbed_cases hstep
  obtain ⟨hhost, hmine⟩ := h.ticking.hosting.step hforeign hm
  rw [h.noBeat] at hmine
  obtain ⟨hfirst, hnone⟩ := List.append_eq_nil_iff.mp hmine.symm
  have hwoken : woken me w.machine a m = none := by
    cases hcase : woken me w.machine a m with
    | none => rfl
    | some e => simp [hcase] at hfirst
  rw [hwoken]
  refine ⟨⟨hhost, shouldRun_step h.ticking.runs hne hm, ?_, ?_⟩, h.object, hnone⟩
  · change ∀ e ∈ mine me m, _
    simp [hnone]
  · exact fun hsome => absurd hnone hsome

/-- A metronome that starts at `t0` in a worker with any other events and handlers has
sent, after the `loop()` at `T`, the beats `t0 + k * d` up to `T`, each once and in
order, if no waiting beat was taken by the `pop()` of another event. -/
theorem beats_on_time {m₀ : Machine V} {o : Metro} (h : Arrival me m₀)
    (hruns : m₀.shouldRun = true) (hsent : o.sent = []) (hd : 1 ≤ period o)
    {before after : List (Action V)} {w₁ w₂ : Hosted V Metro} {T : Int}
    (hbefore : Lib.Run (Lib.StepOf (undisturbed me gNilValue)) ⟨m₀, o⟩ before w₁)
    (hstart : step me gNilValue w₁ (.command .start) = .ok w₂)
    (hafter : Lib.Run (Lib.StepOf (undisturbed me gNilValue)) w₂ after w)
    (hkeeps : Lib.EveryStep (Lib.StepOf (undisturbed me gNilValue)) w₂ after (KeepsWaiting me))
    (hdone : w.machine.log.getLast? = some (.loopDone T)) :
    OnTime w₁.machine.currentTime (period o) T w.object.sent := by
  have hsilent : Silent me o w₁ := hbefore.invariant (Silent me o) (fun _ _ _ ht => ht.step)
    ⟨⟨h.hosting, hruns, by simp [h.mine_eq], by simp [h.mine_eq]⟩, rfl, h.mine_eq⟩
  obtain ⟨-, hstep⟩ := step_cases hstart
  obtain ⟨-, hcommand⟩ := Hosted.step_command hstep
  have hw₂ : w₂ = start me gNilValue w₁ := by
    change (if w₁.object.started then Except.error Fault.notEnabled else
      Except.ok (start me gNilValue w₁)) = Except.ok w₂ at hcommand
    split at hcommand
    · cases hcommand
    · exact (Except.ok.inj hcommand).symm
  have hobject := hsilent.object
  have hfirst : Beating me w₁.machine.currentTime (period o) w₂ := by
    have hbeating := beating_start gNilValue hsilent.ticking (hobject ▸ hd)
      hsilent.noBeat (hobject ▸ hsent) rfl
    rwa [hobject, ← hw₂] at hbeating
  have hlast : Beating me w₁.machine.currentTime (period o) w :=
    hkeeps.throughout (P := Beating me w₁.machine.currentTime (period o))
      (fun _ _ _ ht hq hstep => ht.step hd hq hstep) hfirst after w (List.prefix_refl _) hafter
  obtain ⟨n, e, hbeats, hle, hwaits, hwhen⟩ := hlast.beat
  obtain ⟨hstack, htime⟩ := hlast.settled T hdone
  refine ⟨n, hbeats, ?_, ?_⟩
  · rwa [horizon_nil hstack, htime] at hle
  · have hfuture := hlast.ticking.hosting.future (by simp [hstack]) e (by simp [hwaits])
    rwa [htime, hwhen] at hfuture

/-- A metronome that was started at 0, at tempo 120. -/
def startedAtZero : Hosted Unit Metro where
  machine :=
    { Machine.init true with
      eventsQueue := [⟨0, 500, 0, false, ()⟩]
      nextId := 1
      log := [.accepted ⟨0, 500, 0, false, ()⟩] }
  object := ⟨120, true, true, [0]⟩

/-- The `loop()` at 600 runs its second beat. -/
def inSecondBeat : Hosted Unit Metro where
  machine :=
    { (Machine.init true : Machine Unit) with
      currentTime := 500
      eventsQueue := [⟨0, 500, 0, false, ()⟩, ⟨1, 1000, 0, false, ()⟩]
      stack := [.popEvents 600 ⟨0, 500, 0, false, ()⟩]
      nextId := 2
      log := [.accepted ⟨0, 500, 0, false, ()⟩, .triggered ⟨0, 500, 0, false, ()⟩ 600 500,
        .accepted ⟨1, 1000, 0, false, ()⟩] }
  object := ⟨120, true, true, [0, 500]⟩

/-- The `loop()` at 600 has ended. -/
def afterSecondBeat : Hosted Unit Metro where
  machine :=
    { inSecondBeat.machine with
      currentTime := 600
      eventsQueue := [⟨1, 1000, 0, false, ()⟩]
      stack := []
      log := inSecondBeat.machine.log ++ [.loopDone 600] }
  object := inSecondBeat.object

theorem beats_on_time_600 : OnTime 0 500 600 afterSecondBeat.object.sent := by
  have hstart : step 0 () ⟨Machine.init true, init⟩ (.command .start) = .ok startedAtZero := by
    decide +kernel
  have hloop : undisturbed 0 () startedAtZero (.loop 600) = .ok inSecondBeat := by
    decide +kernel
  have hreturn : undisturbed 0 () inSecondBeat .handlerReturns = .ok afterSecondBeat := by
    decide +kernel
  have hkeeps : KeepsWaiting 0 inSecondBeat .handlerReturns := by
    unfold KeepsWaiting
    decide
  have harrival : Arrival 0 (Machine.init true : Machine Unit) :=
    ⟨⟨rfl, rfl, by decide, by decide⟩, List.Pairwise.nil, by decide⟩
  have hperiod : period init = 500 := by decide +kernel
  have honTime := beats_on_time (o := init) harrival rfl rfl (by rw [hperiod]; decide) .nil hstart
    (.cons hloop (.one hreturn)) (.cons hloop rfl (.cons hreturn hkeeps .nil)) rfl
  rwa [hperiod] at honTime

/-- A worker with an event of node 1 at 10. -/
def otherAtTen : Machine Unit :=
  { Machine.init true with
    eventsQueue := [⟨0, 10, 1, false, ()⟩]
    nextId := 1
    log := [.accepted ⟨0, 10, 1, false, ()⟩] }

/-- A metronome was started in it at 0. -/
def startedBesideOther : Hosted Unit Metro where
  machine :=
    { otherAtTen with
      eventsQueue := [⟨0, 10, 1, false, ()⟩, ⟨1, 500, 0, false, ()⟩]
      nextId := 2
      log := [.accepted ⟨0, 10, 1, false, ()⟩, .accepted ⟨1, 500, 0, false, ()⟩] }
  object := ⟨120, true, true, [0]⟩

/-- The handler of node 1 cancels the events of its node, its own one among them, and
`pop()` takes the beat of the metronome. -/
theorem beat_taken : ∃ w,
    step 0 () ⟨otherAtTen, init⟩ (.command .start) = .ok startedBesideOther ∧
      Lib.Run (Lib.StepOf (undisturbed 0 ())) startedBesideOther
        [.loop 10, .freeEventsFor 1, .handlerReturns, .loop 600] w ∧
      w.machine.log.getLast? = some (.loopDone 600) ∧ ¬ OnTime 0 500 600 w.object.sent := by
  refine ⟨
    { machine :=
        { otherAtTen with
          currentTime := 600
          eventsQueue := []
          nextId := 2
          log := startedBesideOther.machine.log ++
            [.triggered ⟨0, 10, 1, false, ()⟩ 10 10, .freed ⟨0, 10, 1, false, ()⟩, .loopDone 10,
              .loopDone 600] }
      object := ⟨120, true, true, [0]⟩ },
    by decide +kernel, .of_foldlM (by decide +kernel), rfl, ?_⟩
  rintro ⟨n, hsent, -, hlate⟩
  have hlength : (beats 0 500 (n + 1)).length = n + 1 := by simp [beats]
  rw [← hsent] at hlength
  change 1 = n + 1 at hlength
  omega

end Metro

end Rubyk
