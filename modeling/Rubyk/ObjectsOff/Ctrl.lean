/-
  ObjectsOff/Ctrl.lean --- `Ctrl` of `src/objects_off/Ctrl.cpp`: a controller value that
  moves to a target with a slope.

  `bang` starts a chain of events.  Each one moves the value by what the slope gives in the
  time to the next event, which is at least 100 ms, and the last one jumps.  The time of one
  step and the length of a step are divisions that truncate: for some slopes a step is
  nothing at all, and the chain has no end (`glides_iff`).

  WHAT IS MODELLED.  `bang`, `move`, `do_move` and the registered events, by their delays;
  the worker fires them in turn.  A `Real` is a rational number.  `MidiMessage` is not in
  the repository: `set_value` stores the value.

  HISTORY.  `sent`, the values of the messages that were sent, is read by no method.
-/
import Mathlib.Data.Rat.Floor
import Mathlib.Tactic.IntervalCases
import Rubyk.Objects.Metro

set_option autoImplicit false

namespace Rubyk

/-- `MidiMessage`: whether the type is `CtrlChange`, and the value. -/
structure Ctrl.MidiMessage where
  isCtrlChange : Bool
  value : Int
  deriving DecidableEq, Repr

/-- The argument of `bang`. -/
inductive CtrlInput where
  | midi (message : Ctrl.MidiMessage)
  | real (i : ℚ)
  | other
  deriving DecidableEq, Repr

/-- `Ctrl`. -/
structure Ctrl where
  mMessage : Ctrl.MidiMessage
  mSlope : Int
  mTarget : Nat
  events : List Int
  sent : List Int
  deriving DecidableEq, Repr

namespace Ctrl

/-- `CTRL_MIN_TIME_STEP`. -/
def ctrlMinTimeStep : Int := 100

def setValue (c : Ctrl) (value : Int) : Ctrl :=
  { c with mMessage := { c.mMessage with value := value } }

def send (c : Ctrl) : Ctrl := { c with sent := c.sent ++ [c.mMessage.value] }

/-- `do_move`. -/
def doMove (c : Ctrl) : Ctrl :=
  if c.mMessage.value = c.mTarget ∨ c.mSlope = 0 then c
  else
    let delta := (c.mTarget - c.mMessage.value).bmod (2 ^ 32)
    let duration :=
      if delta < 0 then (-1000 * delta).tdiv c.mSlope else (1000 * delta).tdiv c.mSlope
    if duration < ctrlMinTimeStep then
      -- jump to value
      (c.setValue c.mTarget).send
    else
      let next := (1000 : Int).tdiv c.mSlope
      let next := if next < ctrlMinTimeStep then ctrlMinTimeStep else next
      let c :=
        if 0 < delta then c.setValue (c.mMessage.value + (next * c.mSlope).tdiv 1000)
        else c.setValue (c.mMessage.value - (next * c.mSlope).tdiv 1000)
      { c.send with events := c.events ++ [next] }

/-- `move`. -/
def move (c : Ctrl) : Ctrl := c.doMove

/-- `remove_my_events`. -/
def removeMyEvents (c : Ctrl) : Ctrl := { c with events := [] }

/-- `bang`. -/
def bang (c : Ctrl) : CtrlInput → Ctrl
  | .midi message => if message.isCtrlChange then { c with mMessage := message }.send else c.send
  | .real i =>
      if c.mSlope ≠ 0 then
        -- restart triggers
        { c with mTarget := (toTimeT i % 2 ^ 32).toNat }.removeMyEvents.move
      else (c.setValue (toTimeT i)).send
  | .other => c.send

/-- The next event fires. -/
def fire (c : Ctrl) : Ctrl :=
  match c.events with
  | [] => c
  | _ :: events => { c with events := events }.doMove

/-! ## Steps -/

/-- How far an event moves the value. -/
def step (slope : Int) : Int := max (1000 / slope) 100 * slope / 1000

/-- The slopes whose step is nothing: 333 ms at slope 3 are 999 thousandths of a unit, and so on. -/
def stuckSlopes : List Int := [3, 6, 7, 9]

theorem step_pos {slope : Int} (hslope : 1 ≤ slope) (h : slope ∉ stuckSlopes) : 1 ≤ step slope := by
  rcases lt_or_ge 10 slope with hgt | hle
  · have hnext : 1000 / slope ≤ 100 := by
      rw [← Int.lt_add_one_iff]
      exact Int.ediv_lt_of_lt_mul (by omega) (by omega)
    rw [step, max_eq_right hnext]
    omega
  · interval_cases slope <;> first | decide | exact absurd (by decide) h

theorem step_stuck {slope : Int} (h : slope ∈ stuckSlopes) : step slope = 0 := by
  have hall : ∀ s ∈ stuckSlopes, step s = 0 := by decide
  exact hall slope h

/-- A step that is not the last one does not go past the target. -/
theorem step_le {slope d : Int} (hslope : 1 ≤ slope) (hd : 0 < d)
    (hduration : 100 ≤ 1000 * d / slope) : step slope ≤ d := by
  have hmul : 100 * slope ≤ 1000 * d := (Int.le_ediv_iff_mul_le (by omega)).mp hduration
  have hone : 1000 / slope * slope ≤ 1000 := Int.ediv_mul_le 1000 (by omega)
  rcases le_total (1000 / slope) 100 with hle | hge
  · rw [step, max_eq_right hle]
    omega
  · rw [step, max_eq_left hge]
    omega

section Moves

variable {c : Ctrl} {v target : Int} {sent : List Int}

/-- The value after a step. -/
def moved (slope target v : Int) : Int := if v < target then v + step slope else v - step slope

/-- A controller value, and a target that is one. -/
structure InRange (c : Ctrl) : Prop where
  slope : 1 ≤ c.mSlope
  value : 0 ≤ c.mMessage.value ∧ c.mMessage.value ≤ 127
  target : c.mTarget ≤ 127

theorem step_eq {slope : Int} (hslope : 1 ≤ slope) :
    ((if (1000 : Int).tdiv slope < ctrlMinTimeStep then ctrlMinTimeStep
      else (1000 : Int).tdiv slope) * slope).tdiv 1000 = step slope := by
  have hnext : (if (1000 : Int).tdiv slope < ctrlMinTimeStep then ctrlMinTimeStep
      else (1000 : Int).tdiv slope) = max (1000 / slope) 100 := by
    rw [Int.tdiv_eq_ediv_of_nonneg (by decide), ctrlMinTimeStep]
    split <;> omega
  have hnonneg : 0 ≤ max (1000 / slope) 100 * slope := Int.mul_nonneg (by omega) (by omega)
  rw [hnext, Int.tdiv_eq_ediv_of_nonneg hnonneg, step]

/-- Before the target, an event jumps or moves the value by a step. -/
theorem doMove_cases (h : InRange c) (hne : c.mMessage.value ≠ c.mTarget) :
    (1000 * |(c.mTarget : Int) - c.mMessage.value| / c.mSlope < 100 ∧
        c.doMove = (c.setValue c.mTarget).send) ∨
      100 ≤ 1000 * |(c.mTarget : Int) - c.mMessage.value| / c.mSlope ∧ ∃ next,
        c.doMove = { (c.setValue (moved c.mSlope c.mTarget c.mMessage.value)).send with
          events := c.events ++ [next] } := by
  obtain ⟨hslope, hvalue, htarget⟩ := h
  have hdelta : ((c.mTarget : Int) - c.mMessage.value).bmod (2 ^ 32) =
      c.mTarget - c.mMessage.value := Int.bmod_eq_of_le (by omega) (by omega)
  have hduration : (if (c.mTarget : Int) - c.mMessage.value < 0
      then (-1000 * ((c.mTarget : Int) - c.mMessage.value)).tdiv c.mSlope
      else (1000 * ((c.mTarget : Int) - c.mMessage.value)).tdiv c.mSlope) =
        1000 * |(c.mTarget : Int) - c.mMessage.value| / c.mSlope := by
    split
    · next hneg =>
      rw [abs_of_neg hneg, Int.tdiv_eq_ediv_of_nonneg (by omega)]
      congr 1
      omega
    · next hpos =>
      rw [abs_of_nonneg (by omega), Int.tdiv_eq_ediv_of_nonneg (by omega)]
  have hmove : ¬ (c.mMessage.value = c.mTarget ∨ c.mSlope = 0) := by omega
  rw [doMove, if_neg hmove]
  simp only [hdelta, hduration, step_eq hslope]
  by_cases hjump : 1000 * |(c.mTarget : Int) - c.mMessage.value| / c.mSlope < ctrlMinTimeStep
  · exact Or.inl ⟨hjump, if_pos hjump⟩
  · rw [if_neg hjump]
    refine Or.inr ⟨Int.not_lt.mp hjump, if (1000 : Int).tdiv c.mSlope < ctrlMinTimeStep
      then ctrlMinTimeStep else (1000 : Int).tdiv c.mSlope, ?_⟩
    have hdirection : 0 < (c.mTarget : Int) - c.mMessage.value ↔ c.mMessage.value < c.mTarget := by
      omega
    simp only [hdirection, moved]
    split <;> rfl

/-- Nearer to the target by one at least, and not past it. -/
def Nearer (target v v' : Int) : Prop := v < v' ∧ v' ≤ target ∨ target ≤ v' ∧ v' < v

/-- A step that is not the last one goes nearer. -/
theorem nearer_moved {slope : Int} (hslope : 1 ≤ slope) (hstuck : slope ∉ stuckSlopes)
    (hne : v ≠ target) (hduration : 100 ≤ 1000 * |target - v| / slope) :
    Nearer target v (moved slope target v) := by
  have hpos := step_pos hslope hstuck
  have hle := step_le hslope (abs_pos.mpr (sub_ne_zero.mpr hne.symm)) hduration
  unfold moved Nearer
  split
  · next hlt =>
    rw [abs_of_pos (by omega)] at hle
    exact Or.inl (by omega)
  · next hge =>
    rw [abs_of_nonpos (by omega)] at hle
    exact Or.inr (by omega)

/-- What the events of `c` should do from the value `v` on: there is a last one, each value that is
sent is nearer to the target, and the last one is the target. -/
def GlidesTo (target v : Int) (sent : List Int) (c : Ctrl) : Prop :=
  ∃ n values, (fire^[n] c).events = [] ∧ (fire^[n] c).sent = sent ++ values ∧
    (v :: values).IsChain (Nearer target) ∧ (v :: values).getLast? = some target

theorem glidesTo_nil (hevents : c.events = []) (hsent : c.sent = sent) :
    GlidesTo target target sent c :=
  ⟨0, [], hevents, by rw [List.append_nil]; exact hsent, List.IsChain.singleton _, rfl⟩

theorem GlidesTo.cons {v' : Int} (h : GlidesTo target v' (sent ++ [v']) c)
    (hnearer : Nearer target v v') : GlidesTo target v sent c := by
  obtain ⟨n, values, hevents, hsent, hchain, hlast⟩ := h
  refine ⟨n, v' :: values, hevents, ?_, ?_, ?_⟩
  · rwa [List.append_assoc, List.singleton_append] at hsent
  · exact List.isChain_cons_cons.mpr ⟨hnearer, hchain⟩
  · rwa [List.getLast?_cons_cons]

theorem GlidesTo.of_fire (h : GlidesTo target v sent c.fire) : GlidesTo target v sent c := by
  obtain ⟨n, values, hvalues⟩ := h
  exact ⟨n + 1, values, by rwa [Function.iterate_succ_apply]⟩

/-- The chain reaches the target: each event is nearer to it. -/
theorem doMove_glides {d : Nat} (h : InRange c) (hevents : c.events = [])
    (hstuck : c.mSlope ∉ stuckSlopes)
    (hd : ((c.mTarget : Int) - c.mMessage.value).natAbs = d) :
    GlidesTo c.mTarget c.mMessage.value c.sent c.doMove := by
  induction d using Nat.strongRecOn generalizing c with
  | ind d ih =>
    by_cases heq : c.mMessage.value = c.mTarget
    · have hstop : c.doMove = c := if_pos (Or.inl heq)
      rw [hstop, heq]
      exact glidesTo_nil hevents rfl
    · rcases doMove_cases h heq with ⟨-, hjump⟩ | ⟨hduration, next, hmove⟩
      · have hnearer : Nearer c.mTarget c.mMessage.value c.mTarget := by
          unfold Nearer
          omega
        have hlast : GlidesTo c.mTarget c.mTarget (c.sent ++ [(c.mTarget : Int)])
            (c.setValue c.mTarget).send := glidesTo_nil hevents rfl
        rw [hjump]
        exact hlast.cons hnearer
      · have hnearer := nearer_moved h.slope hstuck heq hduration
        obtain ⟨v', hv'⟩ : ∃ v', v' = moved c.mSlope c.mTarget c.mMessage.value := ⟨_, rfl⟩
        rw [← hv'] at hnearer hmove
        have hrange : InRange (c.setValue v').send := by
          obtain ⟨hslope, hvalue, htarget⟩ := h
          have hvalue' : 0 ≤ v' ∧ v' ≤ 127 := by
            unfold Nearer at hnearer
            omega
          exact ⟨hslope, hvalue', htarget⟩
        have hlt : ((c.mTarget : Int) - v').natAbs < d := by
          unfold Nearer at hnearer
          omega
        have hrest : GlidesTo c.mTarget v' (c.sent ++ [v']) (c.setValue v').send.doMove :=
          ih _ hlt hrange hevents hstuck rfl
        have hfire : ({ (c.setValue v').send with events := [next] } : Ctrl).fire =
            (c.setValue v').send.doMove := by
          simp only [fire, send, setValue, hevents]
        rw [hmove, hevents, List.nil_append]
        exact (GlidesTo.of_fire (hfire ▸ hrest)).cons hnearer

/-- Before the target, at a slope without a step. -/
structure Stuck (c : Ctrl) : Prop extends InRange c where
  stuck : c.mSlope ∈ stuckSlopes
  ne : c.mMessage.value ≠ c.mTarget

/-- The same value is sent again, and another event is registered. -/
theorem doMove_stuck (h : Stuck c) (hevents : c.events = []) :
    Stuck c.doMove ∧ ∃ next, c.doMove.events = [next] := by
  have hmoved : moved c.mSlope c.mTarget c.mMessage.value = c.mMessage.value := by
    rw [moved, step_stuck h.stuck, add_zero, sub_zero, ite_self]
  have hslope : ∀ s ∈ stuckSlopes, s ≤ 9 := by decide
  have hle := hslope c.mSlope h.stuck
  have hduration : 100 ≤ 1000 * |(c.mTarget : Int) - c.mMessage.value| / c.mSlope := by
    have hpos : 0 < |(c.mTarget : Int) - c.mMessage.value| :=
      abs_pos.mpr (sub_ne_zero.mpr h.ne.symm)
    have hone := h.slope
    exact (Int.le_ediv_iff_mul_le (by omega)).mpr (by omega)
  rcases doMove_cases h.toInRange h.ne with ⟨hshort, -⟩ | ⟨-, next, hmove⟩
  · omega
  · rw [hmoved, hevents] at hmove
    rw [hmove]
    exact ⟨⟨⟨h.slope, h.value, h.target⟩, h.stuck, h.ne⟩, next, rfl⟩

/-- The chain has no end. -/
theorem fires_stuck (h : Stuck c) (hevents : ∃ next, c.events = [next]) (n : Nat) :
    Stuck (fire^[n] c) ∧ ∃ next, (fire^[n] c).events = [next] := by
  induction n with
  | zero => exact ⟨h, hevents⟩
  | succ n ih =>
    obtain ⟨hstuck, next, hnext⟩ := ih
    have hfire : fire (fire^[n] c) = ({ fire^[n] c with events := [] } : Ctrl).doMove := by
      simp only [fire, hnext]
    rw [Function.iterate_succ_apply', hfire]
    exact doMove_stuck ⟨⟨hstuck.slope, hstuck.value, hstuck.target⟩, hstuck.stuck, hstuck.ne⟩ rfl

/-- A `Real` in the controller range. -/
theorem toTimeT_inRange {i : ℚ} (hlow : 0 ≤ i) (hhigh : i < 128) :
    0 ≤ toTimeT i ∧ toTimeT i ≤ 127 := by
  have hfloor : toTimeT i = ⌊i⌋ := by
    rw [toTimeT, Int.tdiv_eq_ediv_of_nonneg (Rat.num_nonneg.mpr hlow)]
    exact Rat.floor_def'.symm
  have hlt : ⌊i⌋ < 128 := Int.floor_lt.mpr (by exact_mod_cast hhigh)
  rw [hfloor]
  exact ⟨Int.floor_nonneg.mpr hlow, by omega⟩

/-- The chain that `bang` starts glides to the target exactly when there is nothing to do, or the
slope has a step. -/
theorem glides_iff (c : Ctrl) (i : ℚ) (hslope : 1 ≤ c.mSlope)
    (hvalue : 0 ≤ c.mMessage.value ∧ c.mMessage.value ≤ 127) (hi : 0 ≤ i ∧ i < 128) :
    GlidesTo (toTimeT i) c.mMessage.value c.sent (c.bang (.real i)) ↔
      c.mMessage.value = toTimeT i ∨ c.mSlope ∉ stuckSlopes := by
  obtain ⟨hlow, hhigh⟩ := toTimeT_inRange hi.1 hi.2
  have hzero : c.mSlope ≠ 0 := by omega
  have hbang : c.bang (.real i) =
      ({ c with mTarget := (toTimeT i % 2 ^ 32).toNat, events := [] } : Ctrl).doMove := if_pos hzero
  have htarget : (((toTimeT i % 2 ^ 32).toNat : Nat) : Int) = toTimeT i := by omega
  have hrange : InRange { c with mTarget := (toTimeT i % 2 ^ 32).toNat, events := [] } :=
    ⟨hslope, hvalue, by show (toTimeT i % 2 ^ 32).toNat ≤ 127; omega⟩
  rw [hbang]
  by_cases hstuck : c.mSlope ∈ stuckSlopes
  · by_cases heq : c.mMessage.value = toTimeT i
    · refine iff_of_true ?_ (Or.inl heq)
      have hstop : ({ c with mTarget := (toTimeT i % 2 ^ 32).toNat, events := [] } : Ctrl).doMove =
          { c with mTarget := (toTimeT i % 2 ^ 32).toNat, events := [] } :=
        if_pos (Or.inl (heq.trans htarget.symm))
      rw [hstop, heq]
      exact glidesTo_nil rfl rfl
    · refine iff_of_false ?_ (not_or.mpr ⟨heq, not_not.mpr hstuck⟩)
      rintro ⟨n, values, hevents, -⟩
      obtain ⟨hdo, hnext⟩ := doMove_stuck ⟨hrange, hstuck, fun h => heq (h.trans htarget)⟩ rfl
      obtain ⟨-, next, hmore⟩ := fires_stuck hdo hnext n
      rw [hmore] at hevents
      cases hevents
  · refine iff_of_true ?_ (Or.inr hstuck)
    have hglides := doMove_glides hrange rfl hstuck rfl
    rwa [htarget] at hglides

end Moves

/-- A controller in a node, with a slope. -/
def sloped (mSlope value : Int) : Ctrl := ⟨⟨true, value⟩, mSlope, 0, [], []⟩

/-- 20 units in a second, from 64 to 70. -/
theorem glides_iff_twenty :
    GlidesTo (toTimeT 70) 64 [] ((sloped 20 64).bang (.real 70)) :=
  (glides_iff (sloped 20 64) 70 (by decide) (by decide) (by decide)).mpr (Or.inr (by decide))

/-- At 3 units in a second, the value 64 is sent for ever. -/
theorem three_is_stuck :
    ((sloped 3 64).bang (.real 70)).sent = [64] ∧
      ((sloped 3 64).bang (.real 70)).fire.sent = [64, 64] ∧
      ¬ GlidesTo (toTimeT 70) 64 [] ((sloped 3 64).bang (.real 70)) := by
  have hstart : Stuck { sloped 3 64 with mTarget := 70 } :=
    ⟨⟨by decide, by decide, by decide⟩, by decide, by decide⟩
  have hbang : (sloped 3 64).bang (.real 70) =
      ({ sloped 3 64 with mTarget := 70 } : Ctrl).doMove := by
    decide
  refine ⟨by decide, by decide, ?_⟩
  rw [hbang]
  rintro ⟨n, values, hevents, -⟩
  obtain ⟨hdo, hnext⟩ := doMove_stuck hstart rfl
  obtain ⟨-, next, hmore⟩ := fires_stuck hdo hnext n
  rw [hmore] at hevents
  cases hevents

end Ctrl

end Rubyk
