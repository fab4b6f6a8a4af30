/-
  Core/Worker.lean --- `Worker` of `src/core/worker.h` and `src/core/worker.cpp`,
  with the `Event` of `src/core/event.h`.

  WHAT IS MODELLED.  A worker owns the ordered event queue, the deque of looped
  nodes and the logical time.  What the handlers of events do is not fixed by the
  worker: a handler is whatever code a node runs, and the worker only sees the
  calls this code makes on it.  So the model is a machine with an explicit call
  stack.  While a handler runs, its frame is on top of the stack and the next
  action is any call a handler can make; `handlerReturns` gives control back to
  the loop of the worker that was waiting (`pop_events`, `free_events_for` or
  `trigger_loop_events`).  Every behaviour of every handler, and every
  interleaving of commands with `loop()`, is a list of actions.

  UNDEFINED BEHAVIOUR.  Where the C++ code would read through a bad pointer the
  step is a `Fault`, never a made-up result.  The iterators of `trigger_loop_events`
  are places in the deque as they are in memory; whether the documentation still
  promises that they are valid matters in `Core.WorkerLooped` only.

  HISTORY.  `log` records what happened.  No transition reads it.
-/
import Rubyk.Core.OrderedList
import Rubyk.Lib.Deque
import Rubyk.Lib.Runs
import Mathlib.Algebra.Order.Ring.Rat
import Mathlib.Data.Int.Cast.Lemmas
import Mathlib.Tactic.Linarith

set_option autoImplicit false

namespace Rubyk

/-- Address of a `Node`. -/
abbrev NodeId := Nat

/-! ## Events -/

/-- `Event`.  `id` is the address of the object: every caller registers an event
it just made with `new`.  `V` is the type of `Value`, which comes from oscit.
Which method `function_` points to is left to the actions of the handler. -/
structure Event (V : Type) where
  id : Nat
  when : Int
  node : NodeId
  forced : Bool
  parameter : V
  deriving DecidableEq, Repr

namespace Event

variable {V : Type}

/-- `Event::operator>=`. -/
def ge (a b : Event V) : Bool := decide (b.when ≤ a.when)

/-- `Event::uses_receiver`. -/
def usesReceiver (e : Event V) (node : NodeId) : Bool := e.node == node

@[simp] theorem ge_eq_true {a b : Event V} : a.ge b = true ↔ b.when ≤ a.when := by
  simp [ge]

@[simp] theorem ge_eq_false {a b : Event V} : a.ge b = false ↔ a.when < b.when := by
  simp [ge]

end Event

/-! ## The worker and its machine -/

/-- `WORKER_SLEEP_MS`. -/
def workerSleepMs : ℚ := 1 / 100

/-- The data members of `Worker` that its methods read and write. -/
structure Worker (V : Type) where
  currentTime : Int
  shouldRun : Bool
  eventsQueue : List (Event V)
  loopedNodes : Lib.Deque NodeId
  deriving DecidableEq, Repr

/-- A loop of the worker that waits for a handler to return. -/
inductive Frame (V : Type) where
  /-- `trigger_loop_events` with its iterator and its `end` -/
  | triggerLoopEvents (it endIt : Nat)
  /-- `pop_events` in `e->trigger()` -/
  | popEvents (realTime : Int) (e : Event V)
  /-- `free_events_for` in `e->trigger()` -/
  | freeEventsFor (node : NodeId) (e : Event V)
  deriving DecidableEq, Repr

/-- What the history records. -/
inductive Obs (V : Type) where
  /-- `register_event` pushed the event into `events_queue_` -/
  | accepted (e : Event V)
  /-- `miss_event` -/
  | missed (e : Event V)
  /-- refused: the worker is quitting and the event is not forced -/
  | refused (e : Event V)
  /-- `pop_events`, run by the `loop()` with elapsed time `realTime`, triggers the
  event at logical time `at_` -/
  | triggered (e : Event V) (realTime at_ : Int)
  /-- `free_events_for` takes the event out of the queue -/
  | freed (e : Event V)
  /-- `free_events_for` triggers a forced event -/
  | forced (e : Event V)
  /-- `trigger_loop_events` bangs a looped node -/
  | looped (node : NodeId)
  /-- `pop_events` of the `loop()` with this elapsed time returns -/
  | loopDone (elapsed : Int)
  deriving DecidableEq, Repr

/-- Undefined behaviour, or an action that nothing can perform in this state. -/
inductive Fault where
  /-- nothing waits for a handler, or `loop()` is called from inside one -/
  | notEnabled
  /-- `free_events_for` reads through the null pointer of the sentinel -/
  | nullEvent
  /-- `trigger_loop_events` reads outside of the deque -/
  | outOfBounds
  /-- `trigger_loop_events` goes on with an iterator that is not valid any more -/
  | badIterator
  deriving DecidableEq, Repr

/-- A worker in the middle of a run. -/
structure Machine (V : Type) extends Worker V where
  stack : List (Frame V)
  nextId : Nat
  log : List (Obs V)
  deriving DecidableEq, Repr

/-- What commands and handlers call, and the two ends of a step of the worker. -/
inductive Action (V : Type) where
  | registerEvent (when : Int) (node : NodeId) (forced : Bool) (parameter : V)
  | freeEventsFor (node : NodeId)
  | registerLoopedNode (node : NodeId)
  | freeLoopedNode (node : NodeId)
  | shouldRun (value : Bool)
  | loop (elapsed : Int)
  | handlerReturns
  deriving DecidableEq, Repr

namespace Machine

variable {V : Type}

/-- A new `Worker`; `should_run_` belongs to `Thread`. -/
def init (shouldRun : Bool) : Machine V where
  currentTime := 0
  shouldRun := shouldRun
  eventsQueue := []
  loopedNodes := ⟨0, []⟩
  stack := []
  nextId := 0
  log := []

/-- Note something in the history. -/
def note (m : Machine V) (o : Obs V) : Machine V := { m with log := m.log ++ [o] }

/-- The test with which `register_event` recognises an event that is too soon. -/
def tooSoon (w : Worker V) (e : Event V) : Prop :=
  (e.when : ℚ) < (w.currentTime : ℚ) + workerSleepMs

/-- The test of `register_event`, exactly: an event is too soon when it is not
after the logical time, because times are whole milliseconds and the margin is
less than one. -/
@[simp] theorem tooSoon_iff {w : Worker V} {e : Event V} :
    tooSoon w e ↔ e.when ≤ w.currentTime := by
  unfold tooSoon workerSleepMs
  constructor
  · intro h
    by_contra hlt
    have hstep : w.currentTime + 1 ≤ e.when := by omega
    have hcast : (w.currentTime : ℚ) + 1 ≤ (e.when : ℚ) := by exact_mod_cast hstep
    linarith
  · intro h
    have hcast : (e.when : ℚ) ≤ (w.currentTime : ℚ) := by exact_mod_cast h
    linarith

instance (w : Worker V) (e : Event V) : Decidable (tooSoon w e) :=
  decidable_of_iff (e.when ≤ w.currentTime) tooSoon_iff.symm

/-- `Worker::pop_events`, from the test of its `while` to the next handler or to
the end. -/
def popEvents (realTime : Int) (m : Machine V) : Machine V :=
  match OrderedList.get m.eventsQueue with
  | some e =>
      if e.when ≤ realTime then
        { m with
          currentTime := e.when
          stack := .popEvents realTime e :: m.stack
          log := m.log ++ [.triggered e realTime e.when] }
      else { m with currentTime := realTime, log := m.log ++ [.loopDone realTime] }
  | none => { m with currentTime := realTime, log := m.log ++ [.loopDone realTime] }

/-- `Worker::trigger_loop_events` from iterator `it` on, followed in `loop()` by
`pop_events`. -/
def triggerLoopEvents (it endIt : Nat) (m : Machine V) : Except Fault (Machine V) :=
  if it < endIt then
    match m.loopedNodes.get? it with
    | some node =>
        .ok { m with
          stack := .triggerLoopEvents it endIt :: m.stack
          log := m.log ++ [.looped node] }
    | none => .error .outOfBounds
  else .ok (popEvents m.currentTime m)

variable [DecidableEq V]

/-- `Worker::register_event` on a new event. -/
def registerEvent (m : Machine V) (when : Int) (node : NodeId) (forced : Bool)
    (parameter : V) : Machine V :=
  let e : Event V := ⟨m.nextId, when, node, forced, parameter⟩
  let m := { m with nextId := m.nextId + 1 }
  if tooSoon m.toWorker e then m.note (.missed e)
  else if m.shouldRun || e.forced then
    { m with
      eventsQueue := OrderedList.push Event.ge e m.eventsQueue
      log := m.log ++ [.accepted e] }
  else m.note (.refused e)

/-- The `while` loop of `Worker::free_events_for`, from iterator `it` on.  It
stops early, with its own frame on the stack, when it triggers a forced event.
Otherwise `events_queue_.remove(e)` returns the container after `e`, which is
the one the iterator sees next (`remove_append_cons`). -/
def freeEventsFor (node : NodeId) : List (Event V) → Machine V → Machine V
  | [], m => m
  | e :: next, m =>
      if e.usesReceiver node then
        if e.forced then
          { m with
            stack := .freeEventsFor node e :: m.stack
            log := m.log ++ [.freed e, .forced e] }
        else
          freeEventsFor node next
            { m with
              eventsQueue := (OrderedList.remove e m.eventsQueue).2
              log := m.log ++ [.freed e] }
      else freeEventsFor node next m

/-- `Worker::free_looped_node`: only the first occurrence is erased. -/
def freeLoopedNode (m : Machine V) (node : NodeId) : Machine V :=
  { m with loopedNodes := m.loopedNodes.erase node }

/-- `Worker::register_looped_node`. -/
def registerLoopedNode (m : Machine V) (node : NodeId) : Machine V :=
  let m := m.freeLoopedNode node
  { m with loopedNodes := m.loopedNodes.pushBack node }

/-- `Worker::loop`, up to the first handler. -/
def loop (m : Machine V) (elapsed : Int) : Except Fault (Machine V) :=
  match m.stack with
  | [] =>
      triggerLoopEvents m.loopedNodes.first m.loopedNodes.stop
        { m with currentTime := elapsed }
  | _ :: _ => .error .notEnabled

/-- The handler on top of the stack returns. -/
def handlerReturns (m : Machine V) : Except Fault (Machine V) :=
  match m.stack with
  | [] => .error .notEnabled
  | .triggerLoopEvents it endIt :: stack =>
      triggerLoopEvents (it + 1) endIt { m with stack := stack }
  -- `delete e; events_queue_.pop();` whatever is at the head by now
  | .popEvents realTime _ :: stack =>
      .ok (popEvents realTime
        { m with stack := stack, eventsQueue := OrderedList.pop m.eventsQueue })
  | .freeEventsFor node e :: stack =>
      match OrderedList.remove e m.eventsQueue with
      | (some it, queue) =>
          .ok (freeEventsFor node it { m with stack := stack, eventsQueue := queue })
      -- the sentinel holds a null pointer, and `e->uses_receiver` reads it
      | (none, _) => .error .nullEvent

/-- One step of the machine. -/
def step (m : Machine V) : Action V → Except Fault (Machine V)
  | .registerEvent when node forced parameter =>
      .ok (m.registerEvent when node forced parameter)
  | .freeEventsFor node =>
      .ok (freeEventsFor node (OrderedList.begin m.eventsQueue) m)
  | .registerLoopedNode node => .ok (m.registerLoopedNode node)
  | .freeLoopedNode node => .ok (m.freeLoopedNode node)
  | .shouldRun value => .ok { m with shouldRun := value }
  | .loop elapsed => m.loop elapsed
  | .handlerReturns => m.handlerReturns

/-! ## Reading the history -/

/-- The accepted events, in the order they were registered. -/
def accepted : List (Obs V) → List (Event V)
  | [] => []
  | .accepted e :: log => e :: accepted log
  | _ :: log => accepted log

/-- The events `pop_events` triggered, in the order it did. -/
def triggered : List (Obs V) → List (Event V)
  | [] => []
  | .triggered e _ _ :: log => e :: triggered log
  | _ :: log => triggered log

/-- The events that were explicitly cancelled. -/
def freed : List (Obs V) → List (Event V)
  | [] => []
  | .freed e :: log => e :: freed log
  | _ :: log => freed log

end Machine

end Rubyk
