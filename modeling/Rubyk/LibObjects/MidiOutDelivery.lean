/-
  LibObjects/MidiOutDelivery.lean --- what reaches the port of a `MidiOut`, and when.

  THE ACCOUNT.  What should reach the port, with its time, is a list; what reached it
  and what waits for it is another.  A step adds the same to both, apart from two
  kinds: `midi` counts the logical time twice when it registers a delayed message, and
  `pop()` may drop a waiting event.  The destructor loses what waits.
-/
import Rubyk.LibObjects.MidiOut
import Mathlib.Data.List.Perm.Basic

set_option autoImplicit false

namespace Rubyk.MidiOut

open Machine

variable {V : Type} [DecidableEq V] {midiMessage : MidiMessage V} {me : NodeId}
  {w w' : Hosted V (MidiOut V)}

/-- Until its destruction, the node sees what everybody sees. -/
def Playing (me : NodeId) (w : Hosted V (MidiOut V)) : Prop :=
  w.object.destroyed = false → Hosting me w.machine

/-! ## Messages with a wait -/

/-- What should have reached the port did, once and at its time, or waits for its
time. -/
structure OnTime (me : NodeId) (w : Hosted V (MidiOut V)) : Prop where
  account : (w.object.due ++ w.object.owed).Perm (handedTimes w.object ++ pending me w.machine)
  punctual : Idle w.machine.stack → ∀ p ∈ pending me w.machine, w.machine.currentTime < p.1

/-- `OnTime`, until the node is destroyed. -/
def DeliversOnTime (me : NodeId) (w : Hosted V (MidiOut V)) : Prop :=
  w.object.destroyed = false → OnTime me w

/-- Messages with a wait arrive at time 0 of a worker that is not quitting, and nobody
drops an event that waits. -/
def ReceivesAtZero (midiMessage : MidiMessage V) (me : NodeId) (w : Hosted V (MidiOut V)) :
    HostedAction V (MidiOutCommand V) → Prop
  | .command (.midi val) => (w.object.isOk && midiMessage.isMidi val) = true →
      0 < midiMessage.wait val → w.machine.currentTime = 0 ∧ w.machine.shouldRun = true
  | .command .destroy => True
  | .worker a => w.object.destroyed = false → dropped me w.machine a = []

/-- The events of the node are triggered at their own times. -/
theorem punctual (h : Hosting me w.machine) (hidle : Idle w.machine.stack) {p : Int × V}
    (hp : p ∈ pending me w.machine) : w.machine.currentTime < p.1 := by
  obtain ⟨e, he, rfl⟩ := List.mem_map.mp hp
  exact h.future hidle e he

/-- Between loops, what should have reached the port by now has, as often as it should. -/
theorem OnTime.handed_count (h : OnTime me w) (hidle : Idle w.machine.stack) {p : Int × V}
    (hp : p.1 ≤ w.machine.currentTime) :
    (handedTimes w.object).count p = (w.object.due ++ w.object.owed).count p := by
  have hwaits : (pending me w.machine).count p = 0 := by
    refine List.count_eq_zero.mpr fun hmem => ?_
    have := h.punctual hidle p hmem
    omega
  rw [h.account.count_eq p, List.count_append, hwaits, Nat.add_zero]

/-- What a step adds to both sides of the account cancels out. -/
theorem account_iff {lost added : List (Event V)} {late : List (Int × V)}
    (haccount : (w.object.due ++ w.object.owed).Perm
      (handedTimes w.object ++ pending me w.machine))
    (hmoves : Moves me w w' lost added late) :
    (w'.object.due ++ w'.object.owed).Perm (handedTimes w'.object ++ pending me w'.machine) ↔
      (lost.map key ++ late).Perm (added.map key) := by
  obtain ⟨fired, rest, offs, direct, hbefore, hafter, -, hobject⟩ := hmoves
  have hpending := hafter.map key
  have hdirect : (direct.map fun p => (⟨p.1, p.2, false⟩ : Handed V)).map
      (fun x => (x.time, x.message)) = direct := by simp [Function.comp_def]
  have hfired : (fired.map fun e => (⟨e.when, e.parameter, e.forced⟩ : Handed V)).map
      (fun x => (x.time, x.message)) = fired.map key := by simp [key, Function.comp_def]
  simp only [List.perm_iff_count] at haccount hpending ⊢
  have hside : ∀ p,
      (w'.object.due ++ w'.object.owed).count p =
        (handedTimes w'.object ++ pending me w'.machine).count p ↔
      (lost.map key ++ late).count p = (added.map key).count p := by
    intro p
    have hold := haccount p
    have hnew := hpending p
    simp only [pending, handedTimes, hobject, hbefore, List.map_append, List.count_append,
      hdirect, hfired] at hold hnew ⊢
    omega
  exact forall_congr' hside

theorem perm_late_iff (midiMessage : MidiMessage V) (me : NodeId) (w : Hosted V (MidiOut V))
    (val : V) :
    (late midiMessage w (.command (.midi val))).Perm
        ((added midiMessage me w (.command (.midi val))).map key) ↔
      ReceivesAtZero midiMessage me w (.command (.midi val)) := by
  simp only [late, added, ReceivesAtZero]
  by_cases hwaits : (w.object.isOk && midiMessage.isMidi val) = true ∧ 0 < midiMessage.wait val
  · rw [if_pos hwaits]
    by_cases haccepts : Accepts w.machine
        (w.machine.currentTime + (w.machine.currentTime + midiMessage.wait val)) false
    · rw [if_pos ⟨hwaits, haccepts⟩]
      have hruns : w.machine.shouldRun = true := by simpa using haccepts.2
      simp only [List.map_cons, List.map_nil, List.singleton_perm_singleton, key, newEvent,
        Prod.mk.injEq, and_true, hruns]
      constructor
      · intro heq _ _
        omega
      · intro hzero
        have := hzero hwaits.1 hwaits.2
        omega
    · rw [if_neg fun hboth => haccepts hboth.2]
      refine iff_of_false (by simp) fun hzero => haccepts ?_
      obtain ⟨htime, hruns⟩ := hzero hwaits.1 hwaits.2
      exact ⟨by have := hwaits.2; omega, by simp [hruns]⟩
  · rw [if_neg hwaits, if_neg fun hboth => hwaits hboth.1]
    exact iff_of_true (.refl _) fun hok hwait => absurd ⟨hok, hwait⟩ hwaits

/-- A node that is destroyed stays destroyed, and does nothing any more. -/
theorem step_destroyed (hgone : w.object.destroyed = true)
    {a : HostedAction V (MidiOutCommand V)}
    (hstep : Hosted.step (methods midiMessage me) w a = .ok w') :
    w'.object = w.object ∧ ∃ b, a = .worker b := by
  cases a with
  | command c =>
    obtain ⟨-, hcommand⟩ := Hosted.step_command hstep
    simp [methods, command, hgone] at hcommand
  | worker b =>
    obtain ⟨-, m, -, rfl⟩ := Hosted.step_worker hstep
    refine ⟨?_, b, rfl⟩
    cases woken (methods midiMessage me).me w.machine b m with
    | none => rfl
    | some e => simp [Hosted.wake, methods, trigger, hgone]

/-- What the destructors do. -/
theorem step_destroy (halive : w.object.destroyed = false)
    (hstep : Hosted.step (methods midiMessage me) w (.command .destroy) = .ok w') :
    w'.object = { w.object with destroyed := true } := by
  obtain ⟨-, hcommand⟩ := Hosted.step_command hstep
  have heq : .ok (destroy me w) = (Except.ok w' : Except Fault _) := by
    simpa [methods, command, halive] using hcommand
  obtain rfl := Except.ok.inj heq
  rfl

theorem Playing.step (h : Playing me w) {a : HostedAction V (MidiOutCommand V)}
    (hstep : Hosted.step (methods midiMessage me) w a = .ok w') : Playing me w' := by
  intro halive'
  cases hcase : w.object.destroyed with
  | true =>
    rw [(step_destroyed hcase hstep).1, hcase] at halive'
    cases halive'
  | false =>
    by_cases hne : a = .command .destroy
    · subst hne
      rw [step_destroy hcase hstep] at halive'
      cases halive'
    · exact (moves_step (h hcase) hcase hne hstep).1

/-- A step keeps the account exactly when it adds the same to both sides. -/
theorem deliversOnTime_step (h : Playing me w) (hontime : DeliversOnTime me w)
    {a : HostedAction V (MidiOutCommand V)}
    (hstep : Hosted.step (methods midiMessage me) w a = .ok w') :
    DeliversOnTime me w' ↔ ReceivesAtZero midiMessage me w a := by
  cases hcase : w.object.destroyed with
  | true =>
    obtain ⟨hobject, b, rfl⟩ := step_destroyed hcase hstep
    refine iff_of_true (fun halive => ?_) fun halive => ?_
    · rw [hobject, hcase] at halive
      cases halive
    · rw [hcase] at halive
      cases halive
  | false =>
    by_cases hne : a = .command .destroy
    · subst hne
      refine iff_of_true (fun halive => ?_) trivial
      rw [step_destroy hcase hstep] at halive
      cases halive
    · obtain ⟨hhost, hmoves⟩ := moves_step (h hcase) hcase hne hstep
      have halive' : w'.object.destroyed = false := by
        obtain ⟨_, _, _, _, -, -, -, hobject⟩ := hmoves
        rw [hobject]
        exact hcase
      have hiff : DeliversOnTime me w' ↔
          ((lost me w a).map key ++ late midiMessage w a).Perm
            ((added midiMessage me w a).map key) := by
        rw [← account_iff (hontime hcase).account hmoves]
        constructor
        · exact fun hd => (hd halive').account
        · exact fun haccount _ => ⟨haccount, fun hidle p hp => punctual hhost hidle hp⟩
      rw [hiff]
      cases a with
      | command c =>
        cases c with
        | destroy => exact absurd rfl hne
        | midi val => exact perm_late_iff midiMessage me w val
      | worker a =>
        simp [lost, late, added, ReceivesAtZero, hcase]

theorem arrival_playing {m₀ : Machine V} (h : Arrival me m₀) :
    Playing me (⟨m₀, init⟩ : Hosted V (MidiOut V)) :=
  fun _ => h.hosting

/-- Whatever arrives and whatever others do: all messages reach the port once and at
their times, up to any point of a run, exactly when the messages with a wait arrive at
time 0 and nobody drops an event that waits. -/
theorem delivers_throughout_iff {m₀ : Machine V} (h : Arrival me m₀)
    (acts : List (HostedAction V (MidiOutCommand V))) :
    Lib.Throughout (Lib.StepOf (Hosted.step (methods midiMessage me))) ⟨m₀, init⟩ acts
        (DeliversOnTime me) ↔
      Lib.EveryStep (Lib.StepOf (Hosted.step (methods midiMessage me))) ⟨m₀, init⟩ acts
        (ReceivesAtZero midiMessage me) := by
  have hstart : DeliversOnTime me (⟨m₀, init⟩ : Hosted V (MidiOut V)) := fun _ =>
    ⟨by simp [init, handedTimes, pending, h.mine_eq], by simp [pending, h.mine_eq]⟩
  refine Lib.throughout_iff ?_ ?_ (arrival_playing h) hstart acts
  · intro t a u ht hstep
    exact ht.step hstep
  · intro t a u ht hontime hstep
    exact deliversOnTime_step ht hontime hstep

/-- A note, for the examples. -/
structure Note where
  on : Bool
  length : Int
  wait : Int
  deriving DecidableEq

def noteMessage : MidiMessage Note where
  isMidi := fun _ => true
  isNoteOn := Note.on
  length := Note.length
  wait := Note.wait
  noteOnToOff := fun n => { n with on := false }

/-- A message with a wait of 10 arrives after a `loop()` at 1000. -/
def waitsAtThousand : List (HostedAction Note (MidiOutCommand Note)) :=
  [.worker (.loop 1000), .command (.midi ⟨false, 0, 10⟩)]

theorem delivers_throughout_iff_thousand :
    Lib.Throughout (Lib.StepOf (Hosted.step (methods noteMessage 0))) ⟨Machine.init true, init⟩
        waitsAtThousand (DeliversOnTime 0) ↔
      Lib.EveryStep (Lib.StepOf (Hosted.step (methods noteMessage 0))) ⟨Machine.init true, init⟩
        waitsAtThousand (ReceivesAtZero noteMessage 0) :=
  delivers_throughout_iff
    ⟨⟨rfl, rfl, by decide, by decide⟩, List.Pairwise.nil, by decide⟩ waitsAtThousand

/-- It waits for 2010. -/
theorem waits_too_long : ∃ w,
    Lib.Run (Lib.StepOf (Hosted.step (methods noteMessage 0))) ⟨Machine.init true, init⟩
      waitsAtThousand w ∧
      w.object.due = [(1010, ⟨false, 0, 10⟩)] ∧
      pending 0 w.machine = [(2010, ⟨false, 0, 10⟩)] ∧ ¬ DeliversOnTime 0 w := by
  refine ⟨_, Lib.Run.of_foldlM rfl, by decide, by decide, fun h => ?_⟩
  exact absurd (h rfl).account (by decide)

/-! ## Note offs -/

/-- Each `NoteOn` that reached the port has its `NoteOff`: it reached the port at its
time, or waits for it, and does not wait when the node is destroyed. -/
structure NoStuckNote (me : NodeId) (w : Hosted V (MidiOut V)) : Prop where
  alive : w.object.destroyed = false →
    w.object.owed.Perm (paid w.object ++ pendingOffs me w.machine)
  punctual : w.object.destroyed = false → Idle w.machine.stack →
    ∀ p ∈ pendingOffs me w.machine, w.machine.currentTime < p.1
  destroyed : w.object.destroyed = true → w.object.owed.Perm (paid w.object)

/-- The node is destroyed while no `NoteOff` waits, and nobody drops one. -/
def PaysFirst (me : NodeId) (w : Hosted V (MidiOut V)) :
    HostedAction V (MidiOutCommand V) → Prop
  | .command (.midi _) => True
  | .command .destroy => pendingOffs me w.machine = []
  | .worker a => w.object.destroyed = false → ∀ e ∈ dropped me w.machine a, e.forced = false

theorem offs_iff {lost added : List (Event V)} {late : List (Int × V)}
    (howed : w.object.owed.Perm (paid w.object ++ pendingOffs me w.machine))
    (hadded : added.filter (·.forced) = []) (hmoves : Moves me w w' lost added late) :
    w'.object.owed.Perm (paid w'.object ++ pendingOffs me w'.machine) ↔
      lost.filter (·.forced) = [] := by
  obtain ⟨fired, rest, offs, direct, hbefore, hafter, hforced, hobject⟩ := hmoves
  have hoffs : offs.filter (·.forced) = offs := List.filter_eq_self.mpr hforced
  have hpending := (hafter.filter (·.forced)).map key
  have hpaid : paid w'.object = paid w.object ++ (fired.filter (·.forced)).map key := by
    simp [paid, hobject, List.filter_map, Function.comp_def, key]
  have howed' : w'.object.owed = w.object.owed ++ offs.map key := by rw [hobject]
  have hnil : lost.filter (·.forced) = [] ↔ ((lost.filter (·.forced)).map key).Perm [] := by
    rw [List.perm_nil, List.map_eq_nil_iff]
  rw [hnil]
  simp only [List.perm_iff_count] at howed hpending ⊢
  refine forall_congr' fun p => ?_
  have hold := howed p
  have hnew := hpending p
  simp only [pendingOffs, hpaid, howed', hbefore, List.filter_append, List.map_append,
    List.count_append, List.count_nil, hadded, hoffs, List.map_nil] at hold hnew ⊢
  omega

theorem noStuckNote_step (h : Playing me w) (hnone : NoStuckNote me w)
    {a : HostedAction V (MidiOutCommand V)}
    (hstep : Hosted.step (methods midiMessage me) w a = .ok w') :
    NoStuckNote me w' ↔ PaysFirst me w a := by
  cases hcase : w.object.destroyed with
  | true =>
    obtain ⟨hobject, b, rfl⟩ := step_destroyed hcase hstep
    have hgone : w'.object.destroyed = true := by rw [hobject, hcase]
    refine iff_of_true ⟨?_, ?_, fun _ => ?_⟩ fun halive => ?_
    · simp [hgone]
    · simp [hgone]
    · rw [hobject]
      exact hnone.destroyed hcase
    · rw [hcase] at halive
      cases halive
  | false =>
    have howed := hnone.alive hcase
    by_cases hne : a = .command .destroy
    · subst hne
      have hobject := step_destroy hcase hstep
      have hgone : w'.object.destroyed = true := by rw [hobject]
      have hiff : NoStuckNote me w' ↔ w.object.owed.Perm (paid w.object) := by
        constructor
        · intro hafter
          have hpaid := hafter.destroyed hgone
          rwa [hobject] at hpaid
        · intro hpaid
          refine ⟨by simp [hgone], by simp [hgone], fun _ => ?_⟩
          rwa [hobject]
      rw [hiff]
      constructor
      · intro hpaid
        have hlength := (hpaid.symm.trans howed).length_eq
        rw [List.length_append] at hlength
        exact List.eq_nil_of_length_eq_zero (by omega)
      · intro hpaysFirst
        have hnil : pendingOffs me w.machine = [] := hpaysFirst
        rwa [hnil, List.append_nil] at howed
    · obtain ⟨hhost, hmoves⟩ := moves_step (h hcase) hcase hne hstep
      have halive' : w'.object.destroyed = false := by
        obtain ⟨_, _, _, _, -, -, -, hobject⟩ := hmoves
        rw [hobject]
        exact hcase
      have hadded : (added midiMessage me w a).filter (·.forced) = [] := by
        cases a with
        | worker a => rfl
        | command c =>
          cases c with
          | destroy => rfl
          | midi val =>
            simp only [added]
            split <;> simp [newEvent]
      have hiff : NoStuckNote me w' ↔ (lost me w a).filter (·.forced) = [] := by
        rw [← offs_iff howed hadded hmoves]
        constructor
        · exact fun hafter => hafter.alive halive'
        · refine fun hpays => ⟨fun _ => hpays, fun _ hidle p hp => ?_, by simp [halive']⟩
          obtain ⟨e, he, rfl⟩ := List.mem_map.mp hp
          exact hhost.future hidle e (List.mem_filter.mp he).1
      rw [hiff]
      cases a with
      | command c =>
        cases c with
        | destroy => exact absurd rfl hne
        | midi val => exact iff_of_true rfl trivial
      | worker a => simp [lost, PaysFirst, hcase]

/-- Whatever arrives and whatever others do: every `NoteOn` gets its one `NoteOff`, up to
any point of a run, exactly when the node is destroyed while no `NoteOff` waits and
nobody drops one. -/
theorem no_stuck_note_throughout_iff {m₀ : Machine V} (h : Arrival me m₀)
    (acts : List (HostedAction V (MidiOutCommand V))) :
    Lib.Throughout (Lib.StepOf (Hosted.step (methods midiMessage me))) ⟨m₀, init⟩ acts
        (NoStuckNote me) ↔
      Lib.EveryStep (Lib.StepOf (Hosted.step (methods midiMessage me))) ⟨m₀, init⟩ acts
        (PaysFirst me) := by
  have hstart : NoStuckNote me (⟨m₀, init⟩ : Hosted V (MidiOut V)) :=
    ⟨by simp [init, paid, pendingOffs, h.mine_eq], by simp [pendingOffs, h.mine_eq],
      by simp [init]⟩
  refine Lib.throughout_iff ?_ ?_ (arrival_playing h) hstart acts
  · intro t a u ht hstep
    exact ht.step hstep
  · intro t a u ht hnone hstep
    exact noStuckNote_step ht hnone hstep

/-- The node is destroyed while a note of 500 ms plays. -/
def destroyedWhilePlaying : List (HostedAction Note (MidiOutCommand Note)) :=
  [.command (.midi ⟨true, 500, 0⟩), .command .destroy, .worker .handlerReturns]

theorem no_stuck_note_throughout_iff_destroyed :
    Lib.Throughout (Lib.StepOf (Hosted.step (methods noteMessage 0))) ⟨Machine.init true, init⟩
        destroyedWhilePlaying (NoStuckNote 0) ↔
      Lib.EveryStep (Lib.StepOf (Hosted.step (methods noteMessage 0))) ⟨Machine.init true, init⟩
        destroyedWhilePlaying (PaysFirst 0) :=
  no_stuck_note_throughout_iff
    ⟨⟨rfl, rfl, by decide, by decide⟩, List.Pairwise.nil, by decide⟩ destroyedWhilePlaying

/-- Its `NoteOff` is triggered, as the `bang` of a plain `Node`, and never reaches the
port. -/
theorem note_stuck : ∃ w,
    Lib.Run (Lib.StepOf (Hosted.step (methods noteMessage 0))) ⟨Machine.init true, init⟩
      destroyedWhilePlaying w ∧
      .forced ⟨0, 500, 0, true, ⟨false, 500, 0⟩⟩ ∈ w.machine.log ∧
      w.object.handed = [⟨0, ⟨true, 500, 0⟩, false⟩] ∧ ¬ NoStuckNote 0 w := by
  refine ⟨_, Lib.Run.of_foldlM rfl, by decide, by decide, fun h => ?_⟩
  exact absurd (h.destroyed rfl) (by decide)

end Rubyk.MidiOut
