/-
  LibObjects/MidiOut.lean --- `MidiOut` of `src/lib_objects/midi/MidiOut.cpp` in a
  worker.

  WHAT IS MODELLED.  A node with an open port: `midi`, `bang`, and the destructors.
  `~MidiOut` deletes the port, and then `~Node` cancels the events of the node; a
  virtual call made there runs `Node::bang`, which prints.  `MidiMessage` comes from
  oscit and is a parameter.  Opening and listing ports is left out.

  HISTORY.  `due` is when each received message should reach the port, `owed` is the
  `NoteOff` that each `NoteOn` calls for, and `handed` is what reached the port.  No
  method reads them.
-/
import Rubyk.Core.Hosted

set_option autoImplicit false

namespace Rubyk

open Machine

/-- What `MidiOut` asks a value. -/
structure MidiMessage (V : Type) where
  isMidi : V → Bool
  /-- `type() == NoteOn` -/
  isNoteOn : V → Bool
  length : V → Int
  wait : V → Int
  noteOnToOff : V → V

/-- A message that reached the port; `forced` is the flag of the event that carried it,
if an event did. -/
structure Handed (V : Type) where
  time : Int
  message : V
  forced : Bool
  deriving DecidableEq, Repr

/-- `MidiOut`, until and after its destruction. -/
structure MidiOut (V : Type) where
  isOk : Bool
  destroyed : Bool
  due : List (Int × V)
  owed : List (Int × V)
  handed : List (Handed V)
  deriving DecidableEq, Repr

/-- A message arrives at the first inlet, or the node is deleted. -/
inductive MidiOutCommand (V : Type) where
  | midi (val : V)
  | destroy
  deriving DecidableEq, Repr

namespace MidiOut

variable {V : Type} [DecidableEq V]

omit [DecidableEq V] in
/-- A new node with an open port. -/
def init : MidiOut V := ⟨true, false, [], [], []⟩

section Methods

variable (midiMessage : MidiMessage V) (me : NodeId)

/-- `MidiOut::bang`; `forced` is noted only. -/
def bang (forced : Bool) (val : V) (h : Hosted V (MidiOut V)) : Hosted V (MidiOut V) :=
  let time := h.machine.currentTime
  let h := { h with
    object := { h.object with handed := h.object.handed ++ [⟨time, val, forced⟩] } }
  if midiMessage.isNoteOn val ∧ 0 < midiMessage.length val then
    let out := midiMessage.noteOnToOff val
    { machine := bangMeIn me (midiMessage.length val) out true h.machine
      object := { h.object with owed := h.object.owed ++ [(time + midiMessage.length val, out)] } }
  else h

/-- `MidiOut::midi`. -/
def midi (val : V) (h : Hosted V (MidiOut V)) : Hosted V (MidiOut V) :=
  if !h.object.isOk || !midiMessage.isMidi val then h
  else if 0 < midiMessage.wait val then
    { machine := bangMeIn me (h.machine.currentTime + midiMessage.wait val) val false h.machine
      object := { h.object with
        due := h.object.due ++ [(h.machine.currentTime + midiMessage.wait val, val)] } }
  else
    bang midiMessage me false val
      { h with object := { h.object with due := h.object.due ++ [(h.machine.currentTime, val)] } }

/-- `MidiOut::~MidiOut` and `Node::~Node`. -/
def destroy (h : Hosted V (MidiOut V)) : Hosted V (MidiOut V) :=
  { machine := removeMyEvents me h.machine
    object := { h.object with destroyed := true } }

/-- What an event of the node runs: the `bang` of what is left of it. -/
def trigger (e : Event V) (h : Hosted V (MidiOut V)) : Hosted V (MidiOut V) :=
  if h.object.destroyed then h else bang midiMessage me e.forced e.parameter h

/-- A call from outside. -/
def command (c : MidiOutCommand V) (h : Hosted V (MidiOut V)) :
    Except Fault (Hosted V (MidiOut V)) :=
  if h.object.destroyed then .error .notEnabled
  else match c with
    | .midi val => .ok (midi midiMessage me val h)
    | .destroy => .ok (destroy me h)

/-- The class of the node. -/
def methods : NodeMethods V (MidiOut V) (MidiOutCommand V) where
  me := me
  bang := trigger midiMessage me
  command := command midiMessage me

end Methods

/-! ## What waits -/

omit [DecidableEq V] in
/-- When an event is to be triggered, and what with. -/
def key (e : Event V) : Int × V := (e.when, e.parameter)

/-- The messages that wait. -/
def pending (me : NodeId) (m : Machine V) : List (Int × V) := (mine me m).map key

/-- The `NoteOff` messages that wait. -/
def pendingOffs (me : NodeId) (m : Machine V) : List (Int × V) :=
  ((mine me m).filter (·.forced)).map key

omit [DecidableEq V] in
/-- When each message reached the port. -/
def handedTimes (o : MidiOut V) : List (Int × V) :=
  o.handed.map fun x => (x.time, x.message)

omit [DecidableEq V] in
/-- When each `NoteOff` that an event carried reached the port. -/
def paid (o : MidiOut V) : List (Int × V) :=
  (o.handed.filter (·.forced)).map fun x => (x.time, x.message)

variable {midiMessage : MidiMessage V} {me : NodeId} {w w' : Hosted V (MidiOut V)}

/-! ## What the methods do -/

/-- `bang` hands the message over, and registers the `NoteOff` it calls for. -/
theorem bang_spec (midiMessage : MidiMessage V) (h : Hosting me w.machine) (forced : Bool)
    (val : V) :
    Hosting me (bang midiMessage me forced val w).machine ∧
      ∃ offs : List (Event V), (∀ e ∈ offs, e.forced = true) ∧
        (mine me (bang midiMessage me forced val w).machine).Perm (offs ++ mine me w.machine) ∧
        (bang midiMessage me forced val w).object = { w.object with
          owed := w.object.owed ++ offs.map key
          handed := w.object.handed ++ [⟨w.machine.currentTime, val, forced⟩] } := by
  unfold bang
  by_cases hnote : midiMessage.isNoteOn val ∧ 0 < midiMessage.length val
  · obtain ⟨hhost, hperm⟩ := h.registerEvent_own (w.machine.currentTime + midiMessage.length val)
      true (midiMessage.noteOnToOff val)
    have haccepts : Accepts w.machine (w.machine.currentTime + midiMessage.length val) true :=
      ⟨by omega, by simp⟩
    rw [if_pos haccepts] at hperm
    simp only [hnote, and_self, if_true]
    refine ⟨hhost, _, ?_, hperm, rfl⟩
    intro e he
    obtain rfl := List.mem_singleton.mp he
    rfl
  · simp only [hnote, if_false]
    exact ⟨h, [], by simp, .refl _, by simp⟩

/-- `midi` does nothing, registers the message or hands it over. -/
theorem midi_cases (midiMessage : MidiMessage V) (me : NodeId) (val : V)
    (w : Hosted V (MidiOut V)) :
    ((w.object.isOk && midiMessage.isMidi val) = false ∧ midi midiMessage me val w = w) ∨
    ((w.object.isOk && midiMessage.isMidi val) = true ∧ 0 < midiMessage.wait val ∧
      midi midiMessage me val w =
        { machine := w.machine.registerEvent
            (w.machine.currentTime + (w.machine.currentTime + midiMessage.wait val)) me false val
          object := { w.object with
            due := w.object.due ++ [(w.machine.currentTime + midiMessage.wait val, val)] } }) ∨
    ((w.object.isOk && midiMessage.isMidi val) = true ∧ midiMessage.wait val ≤ 0 ∧
      midi midiMessage me val w = bang midiMessage me false val
        { w with object := { w.object with
          due := w.object.due ++ [(w.machine.currentTime, val)] } }) := by
  cases hok : w.object.isOk && midiMessage.isMidi val with
  | false =>
    refine Or.inl ⟨rfl, ?_⟩
    have hskip : (!w.object.isOk || !midiMessage.isMidi val) = true := by
      rw [← Bool.not_and, hok]
      rfl
    simp only [midi, hskip, if_true]
  | true =>
    have hgo : (!w.object.isOk || !midiMessage.isMidi val) = false := by
      rw [← Bool.not_and, hok]
      rfl
    by_cases hwait : 0 < midiMessage.wait val
    · refine Or.inr (Or.inl ⟨rfl, hwait, ?_⟩)
      simp only [midi, hgo, hwait, if_true, Bool.false_eq_true, if_false]
      rfl
    · refine Or.inr (Or.inr ⟨rfl, not_lt.mp hwait, ?_⟩)
      simp only [midi, hgo, hwait, Bool.false_eq_true, if_false]

/-! ## One step of a node that is not destroyed -/

/-- The waiting messages that the step drops. -/
def lost (me : NodeId) (w : Hosted V (MidiOut V)) :
    HostedAction V (MidiOutCommand V) → List (Event V)
  | .worker a => dropped me w.machine a
  | .command _ => []

/-- The message that the step should keep for later. -/
def late (midiMessage : MidiMessage V) (w : Hosted V (MidiOut V)) :
    HostedAction V (MidiOutCommand V) → List (Int × V)
  | .command (.midi val) =>
      if (w.object.isOk && midiMessage.isMidi val) = true ∧ 0 < midiMessage.wait val then
        [(w.machine.currentTime + midiMessage.wait val, val)]
      else []
  | _ => []

/-- The event that the step registers for it. -/
def added (midiMessage : MidiMessage V) (me : NodeId) (w : Hosted V (MidiOut V)) :
    HostedAction V (MidiOutCommand V) → List (Event V)
  | .command (.midi val) =>
      let when := w.machine.currentTime + (w.machine.currentTime + midiMessage.wait val)
      if ((w.object.isOk && midiMessage.isMidi val) = true ∧ 0 < midiMessage.wait val) ∧
          Accepts w.machine when false then
        [newEvent w.machine when me false val]
      else []
  | _ => []

/-- What moves from where to where: events are dropped or fire, messages are handed over
at once (`direct`) or by the events that fire, and events are registered. -/
def Moves (me : NodeId) (w w' : Hosted V (MidiOut V)) (lost added : List (Event V))
    (late : List (Int × V)) : Prop :=
  ∃ (fired rest offs : List (Event V)) (direct : List (Int × V)),
    mine me w.machine = lost ++ (fired ++ rest) ∧
    (mine me w'.machine).Perm (added ++ (offs ++ rest)) ∧
    (∀ e ∈ offs, e.forced = true) ∧
    w'.object = { w.object with
      due := w.object.due ++ (direct ++ late)
      owed := w.object.owed ++ offs.map key
      handed := w.object.handed ++ (direct.map (fun p => ⟨p.1, p.2, false⟩) ++
        fired.map fun e => ⟨e.when, e.parameter, e.forced⟩) }

theorem moves_midi (h : Hosting me w.machine) (val : V) :
    Hosting me (midi midiMessage me val w).machine ∧
      Moves me w (midi midiMessage me val w) [] (added midiMessage me w (.command (.midi val)))
        (late midiMessage w (.command (.midi val))) := by
  rcases midi_cases midiMessage me val w with ⟨hok, heq⟩ | ⟨hok, hwait, heq⟩ | ⟨hok, hwait, heq⟩
  · rw [heq]
    exact ⟨h, [], mine me w.machine, [], [], by simp, by simp [added, hok], by simp,
      by simp [late, hok]⟩
  · obtain ⟨hhost, hperm⟩ := h.registerEvent_own
      (w.machine.currentTime + (w.machine.currentTime + midiMessage.wait val)) false val
    rw [heq]
    refine ⟨hhost, [], mine me w.machine, [], [], by simp, ?_, by simp, by simp [late, hok, hwait]⟩
    simpa only [added, hok, hwait, and_self, true_and, List.nil_append] using hperm
  · have hnow : Hosting me ({ w with object := { w.object with
        due := w.object.due ++ [(w.machine.currentTime, val)] } } : Hosted V (MidiOut V)).machine :=
      h
    obtain ⟨hhost, offs, hforced, hperm, hobject⟩ := bang_spec midiMessage hnow false val
    rw [heq]
    refine ⟨hhost, [], mine me w.machine, offs, [(w.machine.currentTime, val)], by simp, ?_,
      hforced, ?_⟩
    · simpa [added, not_lt.mpr hwait] using hperm
    · rw [hobject]
      simp [late, not_lt.mpr hwait]

theorem moves_worker (h : Hosting me w.machine) (halive : w.object.destroyed = false)
    {a : Action V} (hstep : Hosted.step (methods midiMessage me) w (.worker a) = .ok w') :
    Hosting me w'.machine ∧ Moves me w w' (dropped me w.machine a) [] [] := by
  obtain ⟨hforeign, m, hm, rfl⟩ := Hosted.step_worker hstep
  obtain ⟨hhost, hmine⟩ := h.step hforeign hm
  rw [List.append_assoc] at hmine
  change Hosting me (Hosted.wake _ (woken me w.machine a m) _).machine ∧
    Moves me w (Hosted.wake _ (woken me w.machine a m) _) _ [] []
  cases hwoken : woken me w.machine a m with
  | none =>
    rw [hwoken] at hmine
    exact ⟨hhost, [], mine me m, [], [], hmine, .refl _, by simp, by simp [Hosted.wake]⟩
  | some e =>
    obtain ⟨-, -, T, stack, hstack⟩ := woken_eq_some hwoken
    have htime : m.currentTime = e.when := (hhost.sane.head T e (by simp [hstack])).1
    have hmid : Hosting me ({ w with machine := m } : Hosted V (MidiOut V)).machine := hhost
    obtain ⟨hafter, offs, hforced, hperm, hobject⟩ := bang_spec midiMessage hmid e.forced
      e.parameter
    have hwake : Hosted.wake (methods midiMessage me) (some e) { w with machine := m } =
        bang midiMessage me e.forced e.parameter { w with machine := m } := by
      simp [Hosted.wake, methods, trigger, halive]
    rw [hwoken] at hmine
    rw [hwake]
    refine ⟨hafter, [e], mine me m, offs, [], hmine, hperm, hforced, ?_⟩
    rw [hobject]
    simp [htime]

/-- A step of a node that is not destroyed, and is not by it. -/
theorem moves_step (h : Hosting me w.machine) (halive : w.object.destroyed = false)
    {a : HostedAction V (MidiOutCommand V)} (hne : a ≠ .command .destroy)
    (hstep : Hosted.step (methods midiMessage me) w a = .ok w') :
    Hosting me w'.machine ∧
      Moves me w w' (lost me w a) (added midiMessage me w a) (late midiMessage w a) := by
  cases a with
  | worker a => exact moves_worker h halive hstep
  | command c =>
    cases c with
    | destroy => exact absurd rfl hne
    | midi val =>
      obtain ⟨-, hcommand⟩ := Hosted.step_command hstep
      have heq : w' = midi midiMessage me val w := by
        change (if w.object.destroyed then Except.error Fault.notEnabled else
          Except.ok (midi midiMessage me val w)) = Except.ok w' at hcommand
        rw [halive] at hcommand
        exact (Except.ok.inj hcommand).symm
      rw [heq]
      exact moves_midi h val

end MidiOut

end Rubyk
