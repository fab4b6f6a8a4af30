/-
  Objects/MetroPending.lean --- how many beats of a metronome wait in the queue.

  THE PAIRING.  `bang`, `start_stop` and `change_tempo` each register the next beat;
  `start_stop(0)` and a new tempo also cancel the old one.  `start()`, `start_stop`
  and `tempo` with a tempo that is not positive do only one of the two: the first
  two register without cancelling, the last one stops without cancelling.
-/
import Rubyk.Objects.Metro

set_option autoImplicit false

namespace Rubyk.Metro

open Machine

variable {V : Type} [DecidableEq V]

/-- The interval to the next beat. -/
def period (o : Metro) : Int := toTimeT (oneMinute / o.tempo)

/-- One step of a worker that is not told to quit. -/
def step (me : NodeId) (gNilValue : V) (w : Hosted V Metro) :
    HostedAction V MetroCommand → Except Fault (Hosted V Metro)
  | .worker (.shouldRun false) => .error .notEnabled
  | a => Hosted.step (methods me gNilValue) w a

/-- One beat waits while the metronome runs, and never more. -/
structure OneBeat (me : NodeId) (w : Hosted V Metro) : Prop where
  atMost : (mine me w.machine).length ≤ 1
  exactly : w.object.run = true → (mine me w.machine).length = 1

/-- A beat is registered only when none waits, and nobody drops the one that waits. -/
def KeepsBeat (me : NodeId) (w : Hosted V Metro) : HostedAction V MetroCommand → Prop
  | .command .start => mine me w.machine = [] ∧ 1 ≤ period w.object
  | .command (.startStop (some r)) => r ≠ 0 → w.object.run = false →
      mine me w.machine = [] ∧ 1 ≤ period w.object
  | .command (.tempo (some v)) => w.object.run = true → 0 < v → v ≠ w.object.tempo →
      workerSleepMs + 1 ≤ oneMinute / v
  | .command _ => True
  | .worker a => w.object.run = true → dropped me w.machine a = []

/-! ## The invariant -/

variable {me : NodeId} {gNilValue : V} {w w' : Hosted V Metro}

/-- What every run keeps. -/
structure Ticking (me : NodeId) (w : Hosted V Metro) : Prop where
  hosting : Hosting me w.machine
  runs : w.machine.shouldRun = true
  unforced : ∀ e ∈ mine me w.machine, e.forced = false
  slow : mine me w.machine ≠ [] → 1 ≤ period w.object

theorem step_cases {a : HostedAction V MetroCommand} (h : step me gNilValue w a = .ok w') :
    a ≠ .worker (.shouldRun false) ∧ Hosted.step (methods me gNilValue) w a = .ok w' := by
  unfold step at h
  split at h
  · cases h
  · rename_i hne
    exact ⟨hne, h⟩

/-- The members that do not matter for the interval. -/
theorem Ticking.of_tempo (h : Ticking me w) (hmachine : w'.machine = w.machine)
    (htempo : w'.object.tempo = w.object.tempo) : Ticking me w' where
  hosting := hmachine ▸ h.hosting
  runs := hmachine ▸ h.runs
  unforced := hmachine ▸ h.unforced
  slow := by
    unfold period
    rw [hmachine, htempo]
    exact h.slow

theorem Ticking.accepts_iff (h : Ticking me w) :
    Accepts w.machine (w.machine.currentTime + period w.object) false ↔ 1 ≤ period w.object := by
  simp only [Accepts, h.runs]
  constructor
  · intro hlt
    have := hlt.1
    omega
  · intro hle
    exact ⟨by omega, rfl⟩

/-- The beat that is registered. -/
theorem Ticking.mine_bangMeInPeriod (h : Ticking me w) (gNilValue : V) :
    (mine me (bangMeInPeriod me gNilValue w).machine).Perm
      ((if 1 ≤ period w.object then
        [newEvent w.machine (w.machine.currentTime + period w.object) me false gNilValue]
      else []) ++ mine me w.machine) := by
  have hperm := (h.hosting.registerEvent_own
    (w.machine.currentTime + period w.object) false gNilValue).2
  simp only [h.accepts_iff] at hperm
  exact hperm

/-- Registering the next beat. -/
theorem Ticking.bangMeInPeriod (h : Ticking me w) (gNilValue : V) :
    Ticking me (bangMeInPeriod me gNilValue w) ∧
      (mine me (bangMeInPeriod me gNilValue w).machine).length =
        (mine me w.machine).length + if 1 ≤ period w.object then 1 else 0 := by
  have hhost := (h.hosting.registerEvent_own
    (w.machine.currentTime + period w.object) false gNilValue).1
  have hperm := h.mine_bangMeInPeriod gNilValue
  have hruns : (w.machine.registerEvent (w.machine.currentTime + period w.object) me false
      gNilValue).shouldRun = true :=
    shouldRun_step (a := .registerEvent _ me false gNilValue) h.runs (by simp) rfl
  refine ⟨⟨hhost, hruns, fun e he => ?_, fun hne => ?_⟩, ?_⟩
  · rcases List.mem_append.mp (hperm.mem_iff.mp he) with he | he
    · split at he
      · obtain rfl := List.mem_singleton.mp he
        rfl
      · simp at he
    · exact h.unforced e he
  · by_cases hle : 1 ≤ period w.object
    · exact hle
    · rw [if_neg hle, List.nil_append] at hperm
      exact h.slow fun hnil => hne (List.Perm.eq_nil (hnil ▸ hperm))
  · rw [hperm.length_eq, List.length_append]
    split <;> simp [Nat.add_comm]

/-- Cancelling all beats. -/
theorem Ticking.removes (h : Ticking me w) (hruns : runsOwn me w.machine = false) (o : Metro) :
    Ticking me { machine := removeMyEvents me w.machine, object := o } ∧
      mine me (removeMyEvents me w.machine) = [] := by
  obtain ⟨hhost, hnone⟩ := h.hosting.removeMyEvents hruns h.unforced
  refine ⟨⟨hhost, ?_, ?_, ?_⟩, hnone⟩
  · rw [(removeMyEvents_worker me w.machine).2]
    exact h.runs
  · rw [hnone]
    simp
  · intro hne
    exact absurd hnone hne

/-- `bang` registers the next beat of a running metronome. -/
theorem Ticking.bang (h : Ticking me w) (gNilValue : V) :
    Ticking me (bang me gNilValue w) ∧
      (Metro.bang me gNilValue w).object.run = w.object.run ∧
      (w.object.run = true → (mine me (Metro.bang me gNilValue w).machine).length =
        (mine me w.machine).length + if 1 ≤ period w.object then 1 else 0) ∧
      (w.object.run = false → mine me (Metro.bang me gNilValue w).machine = mine me w.machine) := by
  unfold Metro.bang
  cases hrun : w.object.run with
  | true =>
    obtain ⟨hticking, hlength⟩ := h.bangMeInPeriod gNilValue
    simp only [if_true]
    exact ⟨hticking.of_tempo rfl rfl, hrun, fun _ => hlength, by simp⟩
  | false => exact ⟨h, hrun, by simp, fun _ => rfl⟩

/-! ## The commands -/

/-- A beat more than before is one beat exactly when none was there. -/
theorem oneBeat_of_length (h : Ticking me w)
    (hlength : (mine me w'.machine).length =
      (mine me w.machine).length + if 1 ≤ period w.object then 1 else 0)
    (hrun : w'.object.run = true) :
    OneBeat me w' ↔ mine me w.machine = [] ∧ 1 ≤ period w.object := by
  constructor
  · intro hone
    have hexactly := hone.exactly hrun
    rw [hlength] at hexactly
    by_cases hnil : mine me w.machine = []
    · refine ⟨hnil, ?_⟩
      by_contra hlt
      simp [hnil, hlt] at hexactly
    · have hpos := List.length_pos_iff.mpr hnil
      rw [if_pos (h.slow hnil)] at hexactly
      omega
  · rintro ⟨hnil, hle⟩
    rw [hnil, if_pos hle] at hlength
    exact ⟨hlength.le, fun _ => hlength⟩

theorem Ticking.start (h : Ticking me w) :
    Ticking me (start me gNilValue w) ∧
      (OneBeat me (Metro.start me gNilValue w) ↔
        KeepsBeat me w (.command .start)) := by
  have hstarted : Ticking me { w with object := { w.object with run := true, started := true } } :=
    h.of_tempo rfl rfl
  obtain ⟨hticking, hrun, hlength, -⟩ := hstarted.bang gNilValue
  exact ⟨hticking, oneBeat_of_length h (hlength rfl) hrun⟩

theorem Ticking.startStop (h : Ticking me w) (hruns : runsOwn me w.machine = false)
    (hone : OneBeat me w) (val : Option ℚ) :
    Ticking me (startStop me gNilValue val w).1 ∧
      (OneBeat me (Metro.startStop me gNilValue val w).1 ↔
        KeepsBeat me w (.command (.startStop val))) := by
  cases val with
  | none => exact ⟨h, iff_of_true hone trivial⟩
  | some r =>
    by_cases hr : r = 0
    · obtain ⟨hticking, hnone⟩ := h.removes hruns { w.object with run := false }
      have heq : (Metro.startStop me gNilValue (some r) w).1 =
          { machine := removeMyEvents me w.machine
            object := { w.object with run := false } } := by
        simp [Metro.startStop, hr]
      rw [heq]
      refine ⟨hticking, iff_of_true ⟨?_, ?_⟩ fun hne => absurd hr hne⟩
      · simp [hnone]
      · simp
    · cases hrun : w.object.run with
      | true =>
        have heq : (Metro.startStop me gNilValue (some r) w).1 =
            { w with object := { w.object with run := true } } := by
          simp [Metro.startStop, hr, hrun]
        rw [heq]
        refine ⟨h.of_tempo rfl rfl, iff_of_true ⟨hone.atMost, fun _ => hone.exactly hrun⟩ ?_⟩
        intro _ hstopped
        rw [hrun] at hstopped
        cases hstopped
      | false =>
        obtain ⟨hticking, hlength⟩ := h.bangMeInPeriod gNilValue
        have heq : (Metro.startStop me gNilValue (some r) w).1 =
            { Metro.bangMeInPeriod me gNilValue w with
              object := { w.object with run := true } } := by
          simp [Metro.startStop, hr, hrun]
        rw [heq]
        refine ⟨hticking.of_tempo rfl rfl, Iff.trans (oneBeat_of_length h hlength rfl) ?_⟩
        simp [KeepsBeat, hr, hrun]

theorem Ticking.tempoMethod (h : Ticking me w) (hruns : runsOwn me w.machine = false)
    (hone : OneBeat me w) (val : Option ℚ) :
    Ticking me (tempoMethod me gNilValue val w).1 ∧
      (OneBeat me (Metro.tempoMethod me gNilValue val w).1 ↔
        KeepsBeat me w (.command (.tempo val))) := by
  cases val with
  | none => exact ⟨h, iff_of_true hone trivial⟩
  | some v =>
    change Ticking me (changeTempo me gNilValue v w) ∧
      (OneBeat me (changeTempo me gNilValue v w) ↔ _)
    unfold changeTempo
    by_cases hv : v ≤ 0
    · rw [if_pos hv]
      refine ⟨h.of_tempo rfl rfl, iff_of_true ⟨hone.atMost, by simp⟩ ?_⟩
      intro _ hpos
      exact absurd hpos (not_lt.mpr hv)
    · rw [if_neg hv]
      by_cases hne : v ≠ w.object.tempo
      · rw [if_pos hne]
        generalize hclamped :
          (if oneMinute / v < workerSleepMs + 1 then oneMinute / (workerSleepMs * (3 / 2))
            else v) = clamped
        have hperiod : 1 ≤ period { w.object with tempo := clamped } ↔
            workerSleepMs + 1 ≤ oneMinute / v := by
          rw [← one_le_clamped, hclamped]
          exact one_le_toTimeT _
        obtain ⟨hticking, hnone⟩ := h.removes hruns { w.object with tempo := clamped }
        cases hrun : w.object.run with
        | true =>
          obtain ⟨hafter, hlength⟩ := hticking.bangMeInPeriod gNilValue
          simp only [hrun, if_true] at hafter hlength ⊢
          refine ⟨hafter, Iff.trans (oneBeat_of_length hticking hlength rfl) ?_⟩
          rw [hperiod]
          simp [hnone, KeepsBeat, hrun, hne, not_le.mp hv]
        | false =>
          simp only [hrun, Bool.false_eq_true, if_false] at hticking ⊢
          refine ⟨hticking, iff_of_true ⟨by simp [hnone], by simp⟩ ?_⟩
          intro hrunning
          rw [hrun] at hrunning
          cases hrunning
      · rw [if_neg hne]
        exact ⟨h, iff_of_true hone fun _ _ hne' => absurd hne' hne⟩

/-- What others do, and the beat that they may trigger. -/
theorem Ticking.worker (h : Ticking me w) {a : Action V} {m : Machine V}
    (hforeign : foreign me a = true) (ha : a ≠ .shouldRun false)
    (hm : w.machine.step a = .ok m) (hone : OneBeat me w)
    (heq : w' = Hosted.wake (methods me gNilValue) (woken me w.machine a m)
      { w with machine := m }) :
    Ticking me w' ∧ (OneBeat me w' ↔ KeepsBeat me w (.worker a)) := by
  obtain ⟨hhost, hmine⟩ := h.hosting.step hforeign hm
  have hmid : Ticking me { w with machine := m } := by
    refine ⟨hhost, shouldRun_step h.runs ha hm, fun e he => ?_, fun hne => ?_⟩
    · exact h.unforced e (by rw [hmine]; exact List.mem_append_right _ he)
    · refine h.slow fun hnil => hne ?_
      rw [hnil] at hmine
      exact (List.append_eq_nil_iff.mp hmine.symm).2
  have hatMost := hone.atMost
  rw [hmine, List.length_append, List.length_append] at hatMost
  cases hwoken : woken me w.machine a m with
  | none =>
    rw [hwoken] at heq hmine
    obtain rfl : w' = { w with machine := m } := heq
    refine ⟨hmid, ?_⟩
    have hlength := congrArg List.length hmine
    simp only [List.length_append, Option.toList_none, List.length_nil, Nat.add_zero] at hlength
    constructor
    · intro hafter hrun
      have hbefore := hone.exactly hrun
      have hexactly := hafter.exactly hrun
      have hzero : (dropped me w.machine a).length = 0 := by
        change (mine me m).length = 1 at hexactly
        omega
      exact List.eq_nil_of_length_eq_zero hzero
    · intro hkeeps
      refine ⟨by change (mine me m).length ≤ 1; omega, fun hrun => ?_⟩
      have hbefore := hone.exactly hrun
      rw [hkeeps hrun] at hlength
      change (mine me m).length = 1
      simp only [List.length_nil] at hlength
      omega
  | some e =>
    rw [hwoken] at heq hmine hatMost
    obtain rfl : w' = Metro.bang me gNilValue { w with machine := m } := heq
    obtain ⟨hticking, hrun, hrunning, hstopped⟩ := hmid.bang gNilValue
    simp only [Option.toList_some, List.length_singleton] at hatMost
    have hnone : mine me m = [] := List.eq_nil_of_length_eq_zero (by omega)
    have hdropped : dropped me w.machine a = [] := List.eq_nil_of_length_eq_zero (by omega)
    have hslow : 1 ≤ period w.object := h.slow (by rw [hmine]; simp)
    refine ⟨hticking, iff_of_true ?_ fun _ => hdropped⟩
    cases hbefore : w.object.run with
    | true =>
      have hlength := hrunning hbefore
      rw [if_pos hslow] at hlength
      have hone' : (mine me (Metro.bang me gNilValue { w with machine := m }).machine).length = 1 :=
        hlength.trans (by simp [hnone])
      exact ⟨hone'.le, fun _ => hone'⟩
    | false =>
      have hnil := (hstopped hbefore).trans hnone
      refine ⟨by simp [hnil], fun hrunning => ?_⟩
      rw [hrun] at hrunning
      exact absurd (hbefore.symm.trans hrunning) (by simp)

/-- A step from a state with one beat leaves one beat exactly when it keeps it. -/
theorem Ticking.step {a : HostedAction V MetroCommand} (h : Ticking me w) (hone : OneBeat me w)
    (hstep : Metro.step me gNilValue w a = .ok w') :
    Ticking me w' ∧ (OneBeat me w' ↔ KeepsBeat me w a) := by
  obtain ⟨hne, hstep⟩ := step_cases hstep
  cases a with
  | command c =>
    obtain ⟨hruns, hcommand⟩ := Hosted.step_command hstep
    cases c with
    | start =>
      change (if w.object.started then Except.error Fault.notEnabled else
        Except.ok (Metro.start me gNilValue w)) = Except.ok w' at hcommand
      split at hcommand
      · cases hcommand
      · obtain rfl := Except.ok.inj hcommand
        exact h.start
    | tempo val =>
      obtain rfl := Except.ok.inj hcommand
      exact h.tempoMethod hruns hone val
    | startStop val =>
      obtain rfl := Except.ok.inj hcommand
      exact h.startStop hruns hone val
  | worker a =>
    obtain ⟨hforeign, m, hm, heq⟩ := Hosted.step_worker hstep
    exact h.worker hforeign (fun ha => hne (congrArg _ ha)) hm hone heq

/-! ## Whole runs -/

theorem ticking_init {m₀ : Machine V} (h : Arrival me m₀) (hruns : m₀.shouldRun = true) :
    Ticking me ⟨m₀, init⟩ where
  hosting := h.hosting
  runs := hruns
  unforced := by simp [h.mine_eq]
  slow := by simp [h.mine_eq]

/-- A metronome that is started, retuned to no tempo, and started again. -/
def restarted : List (HostedAction Unit MetroCommand) :=
  [.command .start, .command (.tempo (some 0)), .command (.startStop (some 1))]

end Rubyk.Metro
