/-
  Objects/Metro.lean --- `Metro` of `src/objects/Metro.cpp` in a worker.

  WHAT IS MODELLED.  The two data members, the three methods and `bang`.  `Real` is
  a rational number; `time_t` is an integer, and a `Real` that becomes one loses its
  fraction.  `NewMethod::cast_create` calls the methods named by the parameters, and
  then `start()` once.

  HISTORY.  `started` and `sent`, the logical times at which the outlet has sent its
  bang, are read by no method.
-/
import Rubyk.Core.Hosted

set_option autoImplicit false

namespace Rubyk

open Machine

/-- `ONE_MINUTE`. -/
def oneMinute : ℚ := 60000

/-- A `Real` as a `time_t`. -/
def toTimeT (x : ℚ) : Int := x.num.tdiv x.den

/-- `Metro`. -/
structure Metro where
  tempo : ℚ
  run : Bool
  started : Bool
  sent : List Int
  deriving DecidableEq, Repr

/-- The calls of methods; the argument is `none` when it is no `Real`. -/
inductive MetroCommand where
  | start
  | tempo (val : Option ℚ)
  | startStop (val : Option ℚ)
  deriving DecidableEq, Repr

namespace Metro

variable {V : Type} [DecidableEq V]

/-- `Metro::Metro`. -/
def init : Metro := ⟨120, false, false, []⟩

section Methods

variable (me : NodeId) (gNilValue : V)

/-- `bang_me_in(ONE_MINUTE / tempo_)`. -/
def bangMeInPeriod (h : Hosted V Metro) : Hosted V Metro :=
  { h with
    machine := bangMeIn me (toTimeT (oneMinute / h.object.tempo)) gNilValue false h.machine }

/-- `Metro::bang`. -/
def bang (h : Hosted V Metro) : Hosted V Metro :=
  if h.object.run then
    let h := bangMeInPeriod me gNilValue h
    { h with object := { h.object with sent := h.object.sent ++ [h.machine.currentTime] } }
  else h

/-- `Metro::start`. -/
def start (h : Hosted V Metro) : Hosted V Metro :=
  bang me gNilValue { h with object := { h.object with run := true, started := true } }

/-- `Metro::change_tempo`. -/
def changeTempo (tempo : ℚ) (h : Hosted V Metro) : Hosted V Metro :=
  if tempo ≤ 0 then { h with object := { h.object with run := false } }
  else if tempo ≠ h.object.tempo then
    let clamped :=
      if oneMinute / tempo < workerSleepMs + 1 then oneMinute / (workerSleepMs * (3 / 2))
      else tempo
    let h : Hosted V Metro :=
      { machine := removeMyEvents me h.machine, object := { h.object with tempo := clamped } }
    if h.object.run then bangMeInPeriod me gNilValue h else h
  else h

/-- `Metro::tempo`, with the value it returns. -/
def tempoMethod (val : Option ℚ) (h : Hosted V Metro) : Hosted V Metro × ℚ :=
  let h := match val with
    | some r => changeTempo me gNilValue r h
    | none => h
  (h, h.object.tempo)

/-- `Metro::start_stop`, with the value it returns. -/
def startStop (val : Option ℚ) (h : Hosted V Metro) : Hosted V Metro × Bool :=
  let h := match val with
    | some r =>
        if r = 0 then
          { machine := removeMyEvents me h.machine, object := { h.object with run := false } }
        else
          let h := if h.object.run then h else bangMeInPeriod me gNilValue h
          { h with object := { h.object with run := true } }
    | none => h
  (h, h.object.run)

/-- A call from outside; `start` is called once. -/
def command (c : MetroCommand) (h : Hosted V Metro) : Except Fault (Hosted V Metro) :=
  match c with
  | .start => if h.object.started then .error .notEnabled else .ok (start me gNilValue h)
  | .tempo val => .ok (tempoMethod me gNilValue val h).1
  | .startStop val => .ok (startStop me gNilValue val h).1

/-- The class of the node. -/
def methods : NodeMethods V Metro MetroCommand where
  me := me
  bang := fun _ h => bang me gNilValue h
  command := command me gNilValue

end Methods

@[simp] theorem bangMeInPeriod_object (me : NodeId) (gNilValue : V) (h : Hosted V Metro) :
    (bangMeInPeriod me gNilValue h).object = h.object := rfl

/-! ## `time_t` -/

theorem one_le_toTimeT (x : ℚ) : 1 ≤ toTimeT x ↔ 1 ≤ x := by
  have hden : (0 : Int) < x.den := by exact_mod_cast x.den_pos
  have hx : 1 ≤ x ↔ (x.den : Int) ≤ x.num := by
    rw [Rat.le_iff]
    simp
  rw [hx, toTimeT]
  rcases le_or_gt 0 x.num with hnum | hnum
  · rw [Int.tdiv_eq_ediv_of_nonneg hnum, Int.le_ediv_iff_mul_le hden, one_mul]
  · have hneg : 0 ≤ (-x.num).tdiv x.den := Int.tdiv_nonneg (by omega) hden.le
    rw [Int.neg_tdiv] at hneg
    constructor <;> intro h <;> omega

/-! ## The clamp of `change_tempo` -/

/-- What `register_event` answers. -/
theorem registerEvent_answer (m : Machine V) (when : Int) (node : NodeId) (forced : Bool)
    (parameter : V) :
    (m.registerEvent when node forced parameter).log.getLast? =
      some (if when ≤ m.currentTime then .missed (newEvent m when node forced parameter)
        else if m.shouldRun || forced then .accepted (newEvent m when node forced parameter)
        else .refused (newEvent m when node forced parameter)) := by
  simp only [registerEvent, note, tooSoon_iff]
  split
  · simp [newEvent]
  · split
    · simp [newEvent]
    · simp [newEvent]

/-- The event of the node that was registered last is not missed: the worker takes
it, unless it is quitting. -/
def Takes (m : Machine V) : Prop :=
  ∃ e, m.log.getLast? = some (if m.shouldRun then .accepted e else .refused e)

variable {me : NodeId} {gNilValue : V}

theorem takes_bangMeInPeriod (h : Hosted V Metro) :
    Takes (bangMeInPeriod me gNilValue h).machine ↔ 1 ≤ oneMinute / h.object.tempo := by
  rw [← one_le_toTimeT]
  unfold Takes bangMeInPeriod bangMeIn
  have hrun : ∀ when, (h.machine.registerEvent when me false gNilValue).shouldRun =
      h.machine.shouldRun := by
    intro when
    rcases registerEvent_cases h.machine when me false gNilValue with ⟨-, heq⟩ | ⟨o, -, heq⟩
    all_goals rw [heq]
  simp only [hrun, registerEvent_answer, Bool.or_false]
  constructor
  · rintro ⟨e, he⟩
    by_contra hlt
    rw [if_pos (by omega)] at he
    split at he <;> cases he
  · intro hle
    refine ⟨newEvent h.machine (h.machine.currentTime + toTimeT (oneMinute / h.object.tempo)) me
      false gNilValue, ?_⟩
    rw [if_neg (by omega)]

/-- The interval after the clamp. -/
theorem one_le_clamped (v : ℚ) :
    1 ≤ oneMinute /
        (if oneMinute / v < workerSleepMs + 1 then oneMinute / (workerSleepMs * (3 / 2)) else v) ↔
      workerSleepMs + 1 ≤ oneMinute / v := by
  split
  · rename_i hclamp
    refine iff_of_false ?_ (not_le.mpr hclamp)
    norm_num [oneMinute, workerSleepMs]
  · rename_i hkeep
    have hle : workerSleepMs + 1 ≤ oneMinute / v := not_lt.mp hkeep
    refine iff_of_true (le_trans ?_ hle) hle
    norm_num [workerSleepMs]

/-- A running metronome at its first tempo. -/
def running120 : Hosted Unit Metro :=
  { machine := Machine.init true, object := { init with run := true } }

end Metro

end Rubyk
