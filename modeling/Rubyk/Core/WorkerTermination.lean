/-
  Core/WorkerTermination.lean --- the `while` loop of `pop_events` ends.

  One round of the loop runs one handler.  A handler may register any finite
  number of events that are due in the same `loop()`, so the queue may well grow
  in a round.  What decreases is the multiset of the distances `realTime - when`
  of the events that are due: the event that ran is replaced by finitely many
  events that are strictly closer to `realTime` (`register_event` refuses the
  others), and multisets of natural numbers are well founded under this order.
-/
import Rubyk.Core.WorkerSteps
import Mathlib.Data.Multiset.DershowitzManna

set_option autoImplicit false

namespace Rubyk.Machine

variable {V : Type} [DecidableEq V]

/-- A call that does not cancel events, made by the handler that runs. -/
def IsCall : Action V → Prop
  | .registerEvent _ _ _ _ => True
  | .registerLoopedNode _ => True
  | .freeLoopedNode _ => True
  | .shouldRun _ => True
  | .freeEventsFor _ => False
  | .loop _ => False
  | .handlerReturns => False

/-- One round of the `while` of `pop_events`: the handler makes its calls and
returns. -/
def Round (m m' : Machine V) : Prop :=
  ∃ T e acts m₁, m.stack = [.popEvents T e] ∧ (∀ a ∈ acts, IsCall a) ∧
    Lib.Run (Lib.StepOf step) m acts m₁ ∧ m₁.step .handlerReturns = .ok m'

/-- `pop_events` runs the handler of the event at the head of the queue. -/
structure Running (T : Int) (e : Event V) (m : Machine V) : Prop where
  stack : m.stack = [.popEvents T e]
  head : ∃ rest, m.eventsQueue = e :: rest
  time : m.currentTime = e.when
  due : e.when ≤ T

/-- How close the due events are to the elapsed time. -/
def dueBag (T : Int) (queue : List (Event V)) : Multiset Nat :=
  ((queue.filter fun e => decide (e.when ≤ T)).map fun e => (T - e.when).toNat : List Nat)

omit [DecidableEq V] in
theorem dueBag_perm {T : Int} {q q' : List (Event V)} (h : q.Perm q') :
    dueBag T q = dueBag T q' :=
  Multiset.coe_eq_coe.mpr ((h.filter _).map _)

omit [DecidableEq V] in
theorem dueBag_append (T : Int) (q q' : List (Event V)) :
    dueBag T (q ++ q') = dueBag T q + dueBag T q' := by
  simp [dueBag]

omit [DecidableEq V] in
theorem mem_dueBag {T : Int} {q : List (Event V)} {n : Nat} (h : n ∈ dueBag T q) :
    ∃ e ∈ q, e.when ≤ T ∧ n = (T - e.when).toNat := by
  simp only [dueBag, Multiset.mem_coe, List.mem_map, List.mem_filter, decide_eq_true_eq] at h
  obtain ⟨e, ⟨he, hle⟩, rfl⟩ := h
  exact ⟨e, he, hle, rfl⟩

omit [DecidableEq V] in
theorem dueBag_cons {T : Int} {e : Event V} (h : e.when ≤ T) (q : List (Event V)) :
    dueBag T (e :: q) = dueBag T q + {(T - e.when).toNat} := by
  rw [add_comm]
  simp [dueBag, h]

/-- A call of the handler leaves the running event at the head, and adds events
that are later than it. -/
theorem call_running {T : Int} {e : Event V} {m m' : Machine V} {a : Action V}
    (h : Running T e m) (hcall : IsCall a) (hstep : m.step a = .ok m') :
    Running T e m' ∧ ∃ new, m'.eventsQueue.Perm (new ++ m.eventsQueue) ∧
      ∀ d ∈ new, e.when < d.when := by
  obtain ⟨hstack, ⟨rest, hqueue⟩, htime, hdue⟩ := h
  cases a with
  | registerEvent when node forced parameter =>
    obtain rfl := Except.ok.inj hstep
    rcases registerEvent_cases m when node forced parameter with
      ⟨hlater, heq⟩ | ⟨o, -, heq⟩
    · rw [heq]
      set d := newEvent m when node forced parameter
      have hde : e.when < d.when := htime ▸ hlater
      by_cases hmem : d ∈ m.eventsQueue
      · rw [OrderedList.push_of_mem hmem]
        exact ⟨⟨hstack, ⟨rest, hqueue⟩, htime, hdue⟩, [], .refl _, by simp⟩
      · rw [OrderedList.push_of_not_mem hmem]
        have hge : Event.ge d e = true := Event.ge_eq_true.mpr hde.le
        refine ⟨⟨hstack, ⟨OrderedList.insertContainer Event.ge d rest, ?_⟩, htime, hdue⟩,
          [d], OrderedList.insertContainer_perm _ _ _, ?_⟩
        · simp [hqueue, OrderedList.insertContainer, hge]
        · intro d' hd'
          obtain rfl : d' = d := by simpa using hd'
          exact hde
    · rw [heq]
      exact ⟨⟨hstack, ⟨rest, hqueue⟩, htime, hdue⟩, [], .refl _, by simp⟩
  | registerLoopedNode node =>
    obtain rfl := Except.ok.inj hstep
    exact ⟨⟨hstack, ⟨rest, hqueue⟩, htime, hdue⟩, [], .refl _, by simp⟩
  | freeLoopedNode node =>
    obtain rfl := Except.ok.inj hstep
    exact ⟨⟨hstack, ⟨rest, hqueue⟩, htime, hdue⟩, [], .refl _, by simp⟩
  | shouldRun value =>
    obtain rfl := Except.ok.inj hstep
    exact ⟨⟨hstack, ⟨rest, hqueue⟩, htime, hdue⟩, [], .refl _, by simp⟩
  | freeEventsFor node => exact hcall.elim
  | loop elapsed => exact hcall.elim
  | handlerReturns => exact hcall.elim

/-- The same for all calls of the handler. -/
theorem calls_running {T : Int} {e : Event V} {m m' : Machine V} {acts : List (Action V)}
    (h : Running T e m) (hcalls : ∀ a ∈ acts, IsCall a)
    (hrun : Lib.Run (Lib.StepOf step) m acts m') :
    Running T e m' ∧ ∃ new, m'.eventsQueue.Perm (new ++ m.eventsQueue) ∧
      ∀ d ∈ new, e.when < d.when := by
  induction hrun with
  | nil => exact ⟨h, [], .refl _, by simp⟩
  | snoc _ hlast ih =>
    obtain ⟨hmid, new₁, hperm₁, hnew₁⟩ := ih fun a ha => hcalls a (by simp [ha])
    obtain ⟨hend, new₂, hperm₂, hnew₂⟩ := call_running hmid (hcalls _ (by simp)) hlast
    refine ⟨hend, new₂ ++ new₁, ?_, ?_⟩
    · rw [List.append_assoc]
      exact hperm₂.trans (hperm₁.append_left new₂)
    · intro d hd
      rcases List.mem_append.mp hd with hd | hd
      · exact hnew₂ d hd
      · exact hnew₁ d hd

/-- One round: the distances of the due events go down. -/
theorem round_decreases {T : Int} {e : Event V} {m m' : Machine V}
    (h : Running T e m) (hround : Round m m') :
    (dueBag T m'.eventsQueue).IsDershowitzMannaLT (dueBag T m.eventsQueue) ∧
      ((∃ e', Running T e' m') ∨ m'.stack = []) := by
  obtain ⟨T', e', acts, m₁, hstack, hcalls, hrun, hret⟩ := hround
  obtain ⟨hend, new, hperm, hnew⟩ := calls_running h hcalls hrun
  obtain ⟨rest, hrest⟩ := h.head
  obtain ⟨rest₁, hrest₁⟩ := hend.head
  have hm' : m' = popEvents T { m₁ with stack := [], eventsQueue := rest₁ } := by
    rcases handlerReturns_cases hret with
      ⟨it, endIt, stack, hstack₁, -⟩ | ⟨T₁, e₁, stack, hstack₁, heq⟩ |
      ⟨node, e₁, stack, it, hstack₁, -, -⟩
    · simp [hend.stack] at hstack₁
    · obtain ⟨⟨rfl, rfl⟩, rfl⟩ : (T = T₁ ∧ e = e₁) ∧ stack = [] := by
        simpa [hend.stack] using hstack₁
      rw [heq, hrest₁, List.tail_cons]
    · simp [hend.stack] at hstack₁
  have hqueue : m'.eventsQueue = rest₁ ∧ ((∃ e', Running T e' m') ∨ m'.stack = []) := by
    rcases popEvents_cases T { m₁ with stack := [], eventsQueue := rest₁ } with
      ⟨d, rest₂, hd, hdue, heq⟩ | ⟨-, heq⟩
    · rw [hm', heq]
      exact ⟨rfl, Or.inl ⟨d, rfl, ⟨rest₂, hd⟩, rfl, hdue⟩⟩
    · rw [hm', heq]
      exact ⟨rfl, Or.inr rfl⟩
  refine ⟨?_, hqueue.2⟩
  have hbag : dueBag T rest₁ = dueBag T rest + dueBag T new := by
    have hp : (e :: rest₁).Perm (e :: (new ++ rest)) := by
      rw [← hrest₁]
      refine hperm.trans ?_
      rw [hrest]
      exact List.perm_middle
    rw [dueBag_perm ((List.perm_cons e).mp hp), dueBag_append, add_comm]
  rw [hqueue.1, hrest, hbag, dueBag_cons h.due]
  refine ⟨dueBag T rest, dueBag T new, {(T - e.when).toNat}, by simp, rfl, rfl, ?_⟩
  intro n hn
  obtain ⟨d, hd, hle, rfl⟩ := mem_dueBag hn
  have hlt := hnew d hd
  exact ⟨_, Multiset.mem_singleton_self _, by omega⟩

/-- `pop_events` ends: there is no infinite sequence of rounds. -/
theorem pop_ends {T : Int} {e : Event V} {m : Machine V} (h : Running T e m) :
    Acc (fun m₂ m₁ : Machine V => Round m₁ m₂) m := by
  have hwf : WellFounded (Multiset.IsDershowitzMannaLT (α := Nat)) :=
    Multiset.wellFounded_isDershowitzMannaLT
  generalize hbag : dueBag T m.eventsQueue = bag
  induction bag using hwf.induction generalizing m e with
  | _ bag ih =>
    refine Acc.intro m fun m' hround => ?_
    obtain ⟨hlt, hnext⟩ := round_decreases h hround
    rcases hnext with ⟨e', hrunning⟩ | hidle
    · exact ih _ (hbag ▸ hlt) hrunning rfl
    · refine Acc.intro m' fun m'' hround' => ?_
      obtain ⟨T', e', _, _, hstack, _⟩ := hround'
      simp [hidle] at hstack

/-! ## Handlers as functions -/

/-- What the handler of an event registers, computed from the state it starts in: the
arguments of its calls of `register_event`. -/
abbrev Behaviour (V : Type) := Machine V → Event V → List (Int × NodeId × Bool × V)

/-- The calls of a handler, one after the other. -/
def registerAll (calls : List (Int × NodeId × Bool × V)) (m : Machine V) : Machine V :=
  calls.foldl (fun m c => m.registerEvent c.1 c.2.1 c.2.2.1 c.2.2.2) m

/-- The `while` loop of `pop_events` with these handlers. -/
def popLoop (handler : Behaviour V) : Nat → Machine V → Except Fault (Option (Machine V))
  | 0, _ => .ok none
  | fuel + 1, m =>
      match m.stack with
      | .popEvents _ e :: _ => do
          let m ← (registerAll (handler m e) m).handlerReturns
          popLoop handler fuel m
      | _ => .ok (some m)

theorem run_registerAll (calls : List (Int × NodeId × Bool × V)) (m : Machine V) :
    ∃ acts, (∀ a ∈ acts, IsCall a) ∧ Lib.Run (Lib.StepOf step) m acts (registerAll calls m) := by
  induction calls generalizing m with
  | nil => exact ⟨[], by simp, .nil⟩
  | cons c calls ih =>
    obtain ⟨acts, hcalls, hrun⟩ := ih (m.registerEvent c.1 c.2.1 c.2.2.1 c.2.2.2)
    refine ⟨.registerEvent c.1 c.2.1 c.2.2.1 c.2.2.2 :: acts, ?_, Lib.Run.cons rfl hrun⟩
    simpa [IsCall] using hcalls

/-- One turn of the loop is a round. -/
theorem round_registerAll {T : Int} {e : Event V} {m : Machine V} (h : Running T e m)
    (calls : List (Int × NodeId × Bool × V)) :
    ∃ m', (registerAll calls m).handlerReturns = .ok m' ∧ Round m m' := by
  obtain ⟨acts, hcalls, hrun⟩ := run_registerAll calls m
  obtain ⟨hend, -⟩ := calls_running h hcalls hrun
  have hreturn : (registerAll calls m).handlerReturns =
      .ok (popEvents T { registerAll calls m with
        stack := [], eventsQueue := OrderedList.pop (registerAll calls m).eventsQueue }) := by
    rw [handlerReturns, hend.stack]
  exact ⟨_, hreturn, T, e, acts, _, h.stack, hcalls, hrun, hreturn⟩

/-- The loop ends, from any handler that `pop_events` runs. -/
theorem popLoop_ends (handler : Behaviour V) {T : Int} {e : Event V} {m : Machine V}
    (h : Running T e m) :
    ∃ fuel m', popLoop handler fuel m = .ok (some m') ∧ m'.stack = [] := by
  have hacc := pop_ends h
  induction hacc generalizing e with
  | intro m _ ih =>
    obtain ⟨m₁, hreturn, hround⟩ := round_registerAll h (handler m e)
    have hturn (fuel : Nat) : popLoop handler (fuel + 1) m = popLoop handler fuel m₁ := by
      rw [popLoop, h.stack]
      simp only [hreturn]
      rfl
    rcases (round_decreases h hround).2 with ⟨e', hrunning⟩ | hidle
    · obtain ⟨fuel, m', hloop, hstack⟩ := ih m₁ hround hrunning
      exact ⟨fuel + 1, m', by rw [hturn, hloop], hstack⟩
    · exact ⟨2, m₁, by rw [hturn, popLoop, hidle], hidle⟩

/-- `pop_events` ends, for every queue, every time and all handlers that register
finitely many events each. -/
theorem pop_events_ends (handler : Behaviour V) (m : Machine V) (realTime : Int) :
    ∃ fuel m', popLoop handler fuel (popEvents realTime { m with stack := [] }) =
      .ok (some m') ∧ m'.stack = [] := by
  rcases popEvents_cases realTime { m with stack := [] } with
    ⟨e, rest, hqueue, hdue, heq⟩ | ⟨-, heq⟩
  · exact popLoop_ends handler (T := realTime) (e := e)
      (by rw [heq]; exact ⟨rfl, ⟨rest, hqueue⟩, rfl, hdue⟩)
  · exact ⟨1, _, by rw [heq]; rfl, rfl⟩

end Rubyk.Machine
