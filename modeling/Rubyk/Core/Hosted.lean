/-
  Core/Hosted.lean --- one node in a worker that also serves others.

  WHAT IS MODELLED.  A node (`me`) with its data members, and everybody else: any
  node may register and cancel events of its own, any handler may run, and commands
  reach the node between loops or from the handler of another node.  The methods of
  the node are given by its class; `step` runs its `bang` when `pop_events` triggers
  an event of the node.  Receivers of its outlets do not call back into it: no
  command reaches it while its own handler runs.  Nobody else makes events for it,
  and it is not looped.

  THE INVARIANT.  `mine` are the events of the node that wait.  What others do does
  not change them, with one exception: `pop()` takes the head of the queue, and this
  is an event of the node when another node has cancelled its running one (`dropped`).
-/
import Rubyk.Core.WorkerFree

set_option autoImplicit false

namespace Rubyk

namespace Machine

variable {V : Type} {m m' : Machine V} {me : NodeId}

section Definitions

variable [DecidableEq V]

/-- `Node::bang_me_in`. -/
def bangMeIn (me : NodeId) (interval : Int) (parameter : V) (forced : Bool) (m : Machine V) :
    Machine V :=
  m.registerEvent (m.currentTime + interval) me forced parameter

/-- `Node::remove_my_events`. -/
def removeMyEvents (me : NodeId) (m : Machine V) : Machine V :=
  freeEventsFor me (OrderedList.begin m.eventsQueue) m

/-- The events of the node whose handlers have not started. -/
def mine (me : NodeId) (m : Machine V) : List (Event V) :=
  m.eventsQueue.filter fun e => decide (e.node = me ∧ e ∉ running m.stack)

omit [DecidableEq V] in
/-- `pop_events` runs a handler of the node. -/
def runsOwn (me : NodeId) (m : Machine V) : Bool :=
  (running m.stack).any fun e => e.usesReceiver me

omit [DecidableEq V] in
/-- What others do. -/
def foreign (me : NodeId) : Action V → Bool
  | .registerEvent _ node _ _ => node != me
  | .freeEventsFor node => node != me
  | .registerLoopedNode node => node != me
  | .freeLoopedNode node => node != me
  | .shouldRun _ | .loop _ | .handlerReturns => true

omit [DecidableEq V] in
/-- The event of the node whose handler the action `a` in state `m` starts. -/
def woken (me : NodeId) (m : Machine V) (a : Action V) (m' : Machine V) : Option (Event V) :=
  if resumesLoop m a then
    match m'.stack with
    | .popEvents _ e :: _ => if e.usesReceiver me then some e else none
    | _ => none
  else none

/-- The waiting event of the node that `pop()` takes although it did not run. -/
def dropped (me : NodeId) (m : Machine V) : Action V → List (Event V)
  | .handlerReturns =>
      match m.stack, m.eventsQueue with
      | .popEvents _ e :: _, d :: _ => if d ≠ e ∧ d.node = me then [d] else []
      | _, _ => []
  | _ => []

omit [DecidableEq V] in
/-- No loop of the worker waits. -/
def Idle (stack : List (Frame V)) : Prop := ∀ f ∈ stack, ∃ node e, f = .freeEventsFor node e

end Definitions

variable [DecidableEq V]

/-- What every run keeps, as far as the node can see. -/
structure Hosting (me : NodeId) (m : Machine V) : Prop where
  sane : Sane m
  ascending : m.eventsQueue.Pairwise fun d e => d.when ≤ e.when
  realTime : ∀ T e, .popEvents T e ∈ m.stack → e.when ≤ T
  frames : ∀ node e, .freeEventsFor node e ∈ m.stack → node ≠ me ∧ e.node ≠ me
  /-- between loops, nothing of the node is due -/
  future : Idle m.stack → ∀ e ∈ mine me m, m.currentTime < e.when

/-- A worker between loops to which the node is new. -/
structure Arrival (me : NodeId) (m : Machine V) : Prop where
  start : Start m
  ascending : m.eventsQueue.Pairwise fun d e => d.when ≤ e.when
  others : ∀ e ∈ m.eventsQueue, e.node ≠ me

/-! ## What others do -/

omit [DecidableEq V] in
@[simp] theorem idle_nil : Idle ([] : List (Frame V)) := by simp [Idle]

omit [DecidableEq V] in
@[simp] theorem idle_freeEventsFor {node : NodeId} {e : Event V} {stack : List (Frame V)} :
    Idle (.freeEventsFor node e :: stack) ↔ Idle stack := by
  simp [Idle]

omit [DecidableEq V] in
@[simp] theorem not_idle_popEvents {T : Int} {e : Event V} {stack : List (Frame V)} :
    ¬ Idle (.popEvents T e :: stack) := by
  simp [Idle]

omit [DecidableEq V] in
@[simp] theorem not_idle_triggerLoopEvents {it endIt : Nat} {stack : List (Frame V)} :
    ¬ Idle (.triggerLoopEvents it endIt :: stack) := by
  simp [Idle]

theorem mem_mine {e : Event V} :
    e ∈ mine me m ↔ e ∈ m.eventsQueue ∧ e.node = me ∧ e ∉ running m.stack := by
  simp [mine]

theorem Arrival.mine_eq (h : Arrival me m) : mine me m = [] := by
  refine List.eq_nil_iff_forall_not_mem.mpr fun e he => ?_
  obtain ⟨hmem, hnode, -⟩ := mem_mine.mp he
  exact h.others e hmem hnode

theorem Arrival.hosting (h : Arrival me m) : Hosting me m where
  sane := h.start.sane
  ascending := h.ascending
  realTime := by simp [h.start.stack]
  frames := by simp [h.start.stack]
  future := by simp [h.mine_eq]

omit [DecidableEq V] in
theorem Sane.queueOk (h : Sane m) (hasc : m.eventsQueue.Pairwise fun d e => d.when ≤ e.when) :
    QueueOk m where
  nodup := h.nodup
  ids := fun e he => h.ids e (h.queued e he)
  ascending := hasc

/-- A cancelled event of another node is not one of the node's. -/
theorem mine_erase {e : Event V} (h : e.node ≠ me) (queue : List (Event V))
    (stack : List (Frame V)) :
    (queue.erase e).filter (fun d => decide (d.node = me ∧ d ∉ running stack)) =
      queue.filter fun d => decide (d.node = me ∧ d ∉ running stack) := by
  induction queue with
  | nil => rfl
  | cons d ds ih =>
    by_cases hd : d = e
    · subst hd
      simp [h]
    · have hne : ¬ (d == e) = true := by simpa using hd
      rw [List.erase_cons_tail hne, List.filter_cons, List.filter_cons, ih]

/-- `register_event` for another node. -/
theorem Hosting.registerEvent_foreign (h : Hosting me m) (when : Int) {node : NodeId}
    (forced : Bool) (parameter : V) (hnode : node ≠ me) :
    Hosting me (m.registerEvent when node forced parameter) ∧
      mine me (m.registerEvent when node forced parameter) = mine me m := by
  have hsane := h.sane.registerEvent when node forced parameter
  have hasc := ((h.sane.queueOk h.ascending).registerEvent when node forced parameter).ascending
  suffices hsame : (m.registerEvent when node forced parameter).currentTime = m.currentTime ∧
      (m.registerEvent when node forced parameter).stack = m.stack ∧
      mine me (m.registerEvent when node forced parameter) = mine me m by
    obtain ⟨htime, hstack, hmine⟩ := hsame
    exact ⟨⟨hsane, hasc, hstack ▸ h.realTime, hstack ▸ h.frames,
      hstack ▸ hmine ▸ htime ▸ h.future⟩, hmine⟩
  rcases registerEvent_cases m when node forced parameter with ⟨-, heq⟩ | ⟨o, -, heq⟩
  · rw [heq]
    refine ⟨rfl, rfl, ?_⟩
    unfold mine
    rw [OrderedList.push_of_not_mem fun hmem =>
      h.sane.newEvent_not_mem when node forced parameter (h.sane.queued _ hmem)]
    exact OrderedList.insertContainer_filter_of_neg (by simp [newEvent, hnode]) _
  · rw [heq]
    exact ⟨rfl, rfl, rfl⟩

/-- `free_events_for` for another node. -/
theorem Hosting.freeEventsFor_foreign (h : Hosting me m) {node : NodeId} {it : List (Event V)}
    (hnode : node ≠ me) (hsane : Sane (freeEventsFor node it m)) :
    Hosting me (freeEventsFor node it m) ∧
      mine me (freeEventsFor node it m) = mine me m := by
  suffices hsame : (freeEventsFor node it m).eventsQueue.Sublist m.eventsQueue ∧
      (∀ T e, .popEvents T e ∈ (freeEventsFor node it m).stack → e.when ≤ T) ∧
      (∀ n e, .freeEventsFor n e ∈ (freeEventsFor node it m).stack → n ≠ me ∧ e.node ≠ me) ∧
      (Idle (freeEventsFor node it m).stack → Idle m.stack) ∧
      (freeEventsFor node it m).currentTime = m.currentTime ∧
      mine me (freeEventsFor node it m) = mine me m by
    obtain ⟨hsub, hreal, hframes, hidle, htime, hmine⟩ := hsame
    exact ⟨⟨hsane, h.ascending.sublist hsub, hreal, hframes,
      fun hi => hmine ▸ htime ▸ h.future (hidle hi)⟩, hmine⟩
  refine freeEventsFor_induct
    (P := fun m' => m'.eventsQueue.Sublist m.eventsQueue ∧
      (∀ T e, .popEvents T e ∈ m'.stack → e.when ≤ T) ∧
      (∀ n e, .freeEventsFor n e ∈ m'.stack → n ≠ me ∧ e.node ≠ me) ∧
      (Idle m'.stack → Idle m.stack) ∧ m'.currentTime = m.currentTime ∧
      mine me m' = mine me m) ?_ ?_
    ⟨List.Sublist.refl _, h.realTime, h.frames, id, rfl, rfl⟩
  · rintro m' e - hen ⟨hsub, hreal, hframes, hidle, htime, hmine⟩ -
    refine ⟨hsub, by simpa using hreal, ?_, by simpa using hidle, htime, hmine⟩
    rintro n d hd
    rcases List.mem_cons.mp hd with heq | hd
    · obtain ⟨rfl, rfl⟩ := Frame.freeEventsFor.inj heq
      exact ⟨hnode, hen ▸ hnode⟩
    · exact hframes n d hd
  · rintro m' e - hen ⟨hsub, hreal, hframes, hidle, htime, hmine⟩
    refine ⟨List.erase_sublist.trans hsub, hreal, hframes, hidle, htime, ?_⟩
    rw [← hmine]
    exact mine_erase (hen ▸ hnode) m'.eventsQueue m'.stack

omit [DecidableEq V] in
theorem woken_of_not_resumes {a : Action V} (h : resumesLoop m a = false) :
    woken me m a m' = none := by
  simp [woken, h]

/-- What runs is nowhere else in the queue. -/
theorem filter_running {e : Event V} {rest : List (Event V)} (h : e ∉ rest) :
    rest.filter (fun d => decide (d.node = me) && !decide (d = e)) =
      rest.filter fun d => decide (d.node = me) := by
  refine List.filter_congr fun d hd => ?_
  have hne : d ≠ e := fun hde => h (hde ▸ hd)
  simp [hne]

/-- The next round of `pop_events`: the event it triggers does not wait any more. -/
theorem hosting_popEvents (me : NodeId) (hsane : Sane m) (hstack : m.stack = [])
    (hasc : m.eventsQueue.Pairwise fun d e => d.when ≤ e.when) (T : Int) {m₀ : Machine V}
    {a : Action V} (hresumes : resumesLoop m₀ a = true) :
    Hosting me (popEvents T m) ∧
      mine me m = (woken me m₀ a (popEvents T m)).toList ++ mine me (popEvents T m) := by
  have hsane' := hsane.popEvents hstack T
  rcases popEvents_cases T m with ⟨e, rest, hq, hle, heq⟩ | ⟨hlate, heq⟩
  · have hrest : e ∉ rest := (List.nodup_cons.mp (hq ▸ hsane.nodup)).1
    rw [heq] at hsane' ⊢
    refine ⟨⟨hsane', hasc, ?_, ?_, ?_⟩, ?_⟩
    · intro T' d hd
      obtain ⟨rfl, rfl⟩ : T' = T ∧ d = e := by simpa [hstack] using hd
      exact hle
    · intro node d hd
      simp [hstack] at hd
    · intro hidle
      exact absurd hidle not_idle_popEvents
    · by_cases hnode : e.node = me
      · simp [mine, woken, hresumes, Event.usesReceiver, hstack, hq, hnode, filter_running hrest]
      · simp [mine, woken, hresumes, Event.usesReceiver, hstack, hq, hnode, filter_running hrest]
  · rw [heq] at hsane' ⊢
    refine ⟨⟨hsane', hasc, by simp [hstack], by simp [hstack], ?_⟩, ?_⟩
    · intro _ e he
      obtain ⟨hmem, -, -⟩ := mem_mine.mp he
      cases hq : m.eventsQueue with
      | nil => simp [hq] at hmem
      | cons d rest =>
        have hd := hlate d rest hq
        have hall : ∀ c ∈ rest, d.when ≤ c.when := (List.pairwise_cons.mp (hq ▸ hasc)).1
        rcases List.mem_cons.mp (hq ▸ hmem : e ∈ d :: rest) with rfl | hmem
        · exact hd
        · exact hd.trans_le (hall e hmem)
    · simp [woken, hstack, mine]

/-- The next round of `trigger_loop_events`. -/
theorem hosting_triggerLoopEvents (me : NodeId) (hsane : Sane m) (hstack : m.stack = [])
    (hasc : m.eventsQueue.Pairwise fun d e => d.when ≤ e.when) {it endIt : Nat}
    (hm' : triggerLoopEvents it endIt m = .ok m') {m₀ : Machine V} {a : Action V}
    (hresumes : resumesLoop m₀ a = true) :
    Hosting me m' ∧ mine me m = (woken me m₀ a m').toList ++ mine me m' := by
  have hsane' := hsane.triggerLoopEvents hstack hm'
  rcases triggerLoopEvents_cases hm' with ⟨node, -, -, rfl⟩ | ⟨-, rfl⟩
  · refine ⟨⟨hsane', hasc, by simp [hstack], by simp [hstack], ?_⟩, ?_⟩
    · intro hidle
      exact absurd hidle not_idle_triggerLoopEvents
    · have hnone : woken me m₀ a { m with
          stack := .triggerLoopEvents it endIt :: m.stack
          log := m.log ++ [.looped node] } = none := by simp [woken, hresumes]
      rw [hnone]
      rfl
  · exact hosting_popEvents me hsane hstack hasc m.currentTime hresumes

/-- `pop()` leaves the events of the node alone, apart from the one it drops. -/
theorem Hosting.pop (h : Hosting me m) {T : Int} {e : Event V}
    (hstack : m.stack = [.popEvents T e]) :
    mine me m = dropped me m .handlerReturns ++
      mine me { m with stack := [], eventsQueue := m.eventsQueue.tail } := by
  obtain ⟨-, -, hhead⟩ := h.sane.head T e (by simp [hstack])
  cases hq : m.eventsQueue with
  | nil => simp [mine, dropped, hstack, hq]
  | cons d rest =>
    have hnot : e ∉ rest := by
      intro hmem
      obtain ⟨rest', heq⟩ := hhead (by simp [hq, hmem])
      obtain ⟨rfl, rfl⟩ := List.cons.inj (hq.symm.trans heq)
      exact (List.nodup_cons.mp (hq ▸ h.sane.nodup)).1 hmem
    by_cases hd : d ≠ e ∧ d.node = me
    · simp [mine, dropped, hstack, hq, hd, filter_running hnot]
    · have hskip : ¬ (d.node = me ∧ ¬ d = e) := fun hboth => hd ⟨hboth.2, hboth.1⟩
      simp [mine, dropped, hstack, hq, hd, hskip, filter_running hnot]

/-- What a step of others does to the events of the node: `pop()` may drop one, and
`pop_events` may trigger one. -/
theorem Hosting.step (h : Hosting me m) {a : Action V} (hforeign : foreign me a = true)
    (hm' : Machine.step m a = .ok m') :
    Hosting me m' ∧
      mine me m = dropped me m a ++ (woken me m a m').toList ++ mine me m' := by
  have hsane' := h.sane.step hm'
  cases a with
  | registerEvent when node forced parameter =>
    obtain rfl := Except.ok.inj hm'
    obtain ⟨hh, hmine⟩ := h.registerEvent_foreign when forced parameter
      (by simpa [foreign] using hforeign)
    exact ⟨hh, by simp [dropped, woken, resumesLoop, hmine]⟩
  | freeEventsFor node =>
    obtain rfl := Except.ok.inj hm'
    obtain ⟨hh, hmine⟩ := h.freeEventsFor_foreign (by simpa [foreign] using hforeign) hsane'
    exact ⟨hh, by simp [dropped, woken, resumesLoop, hmine]⟩
  | registerLoopedNode node =>
    obtain rfl := Except.ok.inj hm'
    exact ⟨⟨hsane', h.ascending, h.realTime, h.frames, h.future⟩, rfl⟩
  | freeLoopedNode node =>
    obtain rfl := Except.ok.inj hm'
    exact ⟨⟨hsane', h.ascending, h.realTime, h.frames, h.future⟩, rfl⟩
  | shouldRun value =>
    obtain rfl := Except.ok.inj hm'
    exact ⟨⟨hsane', h.ascending, h.realTime, h.frames, h.future⟩, rfl⟩
  | loop elapsed =>
    obtain ⟨hstack, hloop⟩ := loop_cases hm'
    have hstart : Sane { m with currentTime := elapsed } :=
      h.sane.between hstack elapsed (List.Sublist.refl _) rfl rfl rfl
    exact hosting_triggerLoopEvents me hstart hstack h.ascending hloop rfl
  | handlerReturns =>
    rcases handlerReturns_cases hm' with ⟨it, endIt, stack, hstack, hloop⟩ |
      ⟨T, e, stack, hstack, rfl⟩ | ⟨node, e, stack, it, hstack, hit, rfl⟩
    · obtain rfl : stack = [] := h.sane.stack_eq_nil hstack (by simp)
      have hresumes : resumesLoop m .handlerReturns = true := by simp [resumesLoop, hstack]
      obtain ⟨hh, hmine⟩ := hosting_triggerLoopEvents me (h.sane.settles hstack (by simp))
        rfl h.ascending hloop hresumes
      refine ⟨hh, ?_⟩
      have hsame : mine me m = mine me { m with stack := [] } := by simp [mine, hstack]
      simpa [dropped, hstack, hsame] using hmine
    · obtain rfl : stack = [] := h.sane.stack_eq_nil hstack (by simp)
      have hresumes : resumesLoop m .handlerReturns = true := by simp [resumesLoop, hstack]
      have htail := (h.sane.settles hstack (by simp)).between rfl m.currentTime
        (List.tail_sublist m.eventsQueue) rfl rfl rfl
      obtain ⟨hh, hmine⟩ := hosting_popEvents me htail rfl
        (h.ascending.sublist (List.tail_sublist _)) T hresumes
      refine ⟨hh, ?_⟩
      rw [h.pop hstack, List.append_assoc]
      exact congrArg _ hmine
    · have hframe := h.frames node e (by simp [hstack])
      have hresumes : resumesLoop m .handlerReturns = false := by simp [resumesLoop, hstack]
      have hq : e ∉ m.eventsQueue.erase e := fun hq => (h.sane.nodup.mem_erase_iff.mp hq).1 rfl
      have hmine : mine me { m with stack := stack, eventsQueue := m.eventsQueue.erase e } =
          mine me m := by
        simpa [mine, hstack] using mine_erase hframe.2 m.eventsQueue stack
      have hunwound :
          Hosting me { m with stack := stack, eventsQueue := m.eventsQueue.erase e } := by
        refine ⟨(h.sane.erases e).unwinds hstack hq, h.ascending.sublist List.erase_sublist,
          fun T d hd => h.realTime T d (by simp [hstack, hd]),
          fun n d hd => h.frames n d (by simp [hstack, hd]), fun hidle => ?_⟩
        exact hmine ▸ h.future (by simpa [hstack] using hidle)
      obtain ⟨hh, hkeeps⟩ := hunwound.freeEventsFor_foreign hframe.1 hsane'
      refine ⟨hh, ?_⟩
      rw [woken_of_not_resumes hresumes, hkeeps, hmine]
      simp [dropped, hstack]

omit [DecidableEq V] in
theorem woken_eq_some {a : Action V} {e : Event V} (h : woken me m a m' = some e) :
    resumesLoop m a = true ∧ e.node = me ∧ ∃ T stack, m'.stack = .popEvents T e :: stack := by
  unfold woken at h
  split at h
  · rename_i hresumes
    split at h
    · rename_i T d stack hstack
      split at h
      · rename_i huses
        obtain rfl := Option.some.inj h
        exact ⟨hresumes, by simpa [Event.usesReceiver] using huses, T, stack, hstack⟩
      · cases h
    · cases h
  · cases h

/-- A worker that is not told to quit goes on running. -/
theorem shouldRun_step {a : Action V} (hruns : m.shouldRun = true) (ha : a ≠ .shouldRun false)
    (hm' : Machine.step m a = .ok m') : m'.shouldRun = true := by
  have hfree : ∀ (node : NodeId) (it : List (Event V)) (m : Machine V),
      (freeEventsFor node it m).shouldRun = m.shouldRun := by
    intro node it m
    exact freeEventsFor_induct (P := fun m' => m'.shouldRun = m.shouldRun)
      (fun _ _ _ _ h _ => h) (fun _ _ _ _ h => h) rfl
  have hpop : ∀ (T : Int) (m : Machine V), (popEvents T m).shouldRun = m.shouldRun := by
    intro T m
    rcases popEvents_cases T m with ⟨e, rest, -, -, heq⟩ | ⟨-, heq⟩
    all_goals rw [heq]
  have htrigger : ∀ {it endIt : Nat} {m m' : Machine V},
      triggerLoopEvents it endIt m = .ok m' → m'.shouldRun = m.shouldRun := by
    intro it endIt m m' hm'
    rcases triggerLoopEvents_cases hm' with ⟨node, -, -, rfl⟩ | ⟨-, rfl⟩
    · rfl
    · exact hpop _ m
  cases a with
  | registerEvent when node forced parameter =>
    obtain rfl := Except.ok.inj hm'
    rcases registerEvent_cases m when node forced parameter with ⟨-, heq⟩ | ⟨o, -, heq⟩
    all_goals rw [heq]; exact hruns
  | freeEventsFor node =>
    obtain rfl := Except.ok.inj hm'
    rwa [hfree]
  | registerLoopedNode node =>
    obtain rfl := Except.ok.inj hm'
    exact hruns
  | freeLoopedNode node =>
    obtain rfl := Except.ok.inj hm'
    exact hruns
  | shouldRun value =>
    obtain rfl := Except.ok.inj hm'
    cases value with
    | true => rfl
    | false => exact absurd rfl ha
  | loop elapsed =>
    obtain ⟨-, hloop⟩ := loop_cases hm'
    rwa [htrigger hloop]
  | handlerReturns =>
    rcases handlerReturns_cases hm' with ⟨it, endIt, stack, -, hloop⟩ |
      ⟨T, e, stack, -, rfl⟩ | ⟨node, e, stack, it, -, -, rfl⟩
    · rwa [htrigger hloop]
    · rwa [hpop]
    · rwa [hfree]

/-! ## What the node does -/

/-- The node registers an event. -/
theorem Hosting.registerEvent_own (h : Hosting me m) (when : Int) (forced : Bool)
    (parameter : V) :
    Hosting me (m.registerEvent when me forced parameter) ∧
      (mine me (m.registerEvent when me forced parameter)).Perm
        ((if Accepts m when forced then [newEvent m when me forced parameter] else []) ++
          mine me m) := by
  have hsane := h.sane.registerEvent when me forced parameter
  have hasc := ((h.sane.queueOk h.ascending).registerEvent when me forced parameter).ascending
  by_cases haccepts : Accepts m when forced
  · have heq := registerEvent_accepts haccepts me parameter
    have hnew : newEvent m when me forced parameter ∉ m.eventsQueue := fun hmem =>
      h.sane.newEvent_not_mem when me forced parameter (h.sane.queued _ hmem)
    have hrun : newEvent m when me forced parameter ∉ running m.stack := by
      intro hmem
      obtain ⟨T, hT⟩ := mem_running.mp hmem
      exact h.sane.newEvent_not_mem when me forced parameter (h.sane.head T _ hT).2.1
    have hmine : (mine me (m.registerEvent when me forced parameter)).Perm
        (newEvent m when me forced parameter :: mine me m) := by
      rw [heq]
      unfold mine
      rw [OrderedList.push_of_not_mem hnew]
      have hperm := (OrderedList.insertContainer_perm Event.ge
        (newEvent m when me forced parameter) m.eventsQueue).filter
          fun e => decide (e.node = me ∧ e ∉ running m.stack)
      have hnode : (newEvent m when me forced parameter).node = me := rfl
      rwa [List.filter_cons_of_pos (by simp [hnode, hrun])] at hperm
    rw [if_pos haccepts]
    refine ⟨⟨hsane, hasc, ?_, ?_, ?_⟩, hmine⟩
    · rw [heq]
      exact h.realTime
    · rw [heq]
      exact h.frames
    · intro hidle e he
      have htime : (m.registerEvent when me forced parameter).currentTime = m.currentTime := by
        rw [heq]
      rw [heq] at hidle
      rw [htime]
      rcases List.mem_cons.mp (hmine.mem_iff.mp he) with rfl | he
      · exact haccepts.1
      · exact h.future hidle e he
  · obtain ⟨o, -, heq⟩ := registerEvent_rejects haccepts me parameter
    rw [if_neg haccepts, heq]
    rw [heq] at hsane
    exact ⟨⟨hsane, h.ascending, h.realTime, h.frames, h.future⟩, .refl _⟩

/-- Cancelling takes no time. -/
theorem removeMyEvents_worker (me : NodeId) (m : Machine V) :
    (removeMyEvents me m).currentTime = m.currentTime ∧
      (removeMyEvents me m).shouldRun = m.shouldRun := by
  refine freeEventsFor_induct
    (P := fun m' => m'.currentTime = m.currentTime ∧ m'.shouldRun = m.shouldRun) ?_ ?_ ⟨rfl, rfl⟩
  · exact fun m' e _ _ h _ => h
  · exact fun m' e _ _ h => h

/-- Without a handler of the node, all its events wait. -/
theorem mem_mine_of_not_runsOwn (hruns : runsOwn me m = false) {e : Event V} :
    e ∈ mine me m ↔ e ∈ m.eventsQueue ∧ e.node = me := by
  rw [mem_mine]
  constructor
  · exact fun h => ⟨h.1, h.2.1⟩
  · rintro ⟨hmem, hnode⟩
    refine ⟨hmem, hnode, fun hrun => ?_⟩
    have hany : runsOwn me m = true :=
      List.any_eq_true.mpr ⟨e, hrun, by simp [Event.usesReceiver, hnode]⟩
    rw [hruns] at hany
    cases hany

/-- The node takes back its events, none of which is forced or running. -/
theorem Hosting.removeMyEvents (h : Hosting me m) (hruns : runsOwn me m = false)
    (hunforced : ∀ e ∈ mine me m, e.forced = false) :
    Hosting me (removeMyEvents me m) ∧ mine me (removeMyEvents me m) = [] := by
  have hsane := h.sane.freeEventsFor me h.sane.queued
  unfold Machine.removeMyEvents
  change Hosting me (Machine.freeEventsFor me m.eventsQueue m) ∧ _
  have hwalk := @freeEventsFor_walk V _ me m.eventsQueue m [] rfl h.sane.nodup
  rcases hwalk with
    ⟨skip, e, back, hq, -, hnode, hforced, -⟩ | ⟨-, heq⟩
  · have he : e ∈ m.eventsQueue := by simp [hq]
    rw [hunforced e ((mem_mine_of_not_runsOwn hruns).mpr ⟨he, hnode⟩)] at hforced
    cases hforced
  · have hnone : mine me (Machine.freeEventsFor me m.eventsQueue m) = [] := by
      refine List.eq_nil_iff_forall_not_mem.mpr fun e he => ?_
      obtain ⟨hmem, hnode, -⟩ := mem_mine.mp he
      rw [heq] at hmem
      exact (mem_ofOthers.mp hmem).2 hnode
    refine ⟨⟨hsane, ?_, ?_, ?_, ?_⟩, hnone⟩
    · rw [heq]
      exact h.ascending.sublist List.filter_sublist
    · rw [heq]
      exact h.realTime
    · rw [heq]
      exact h.frames
    · rw [hnone]
      simp

end Machine

/-! ## The node and its worker -/

open Machine

/-- The worker, and the data members of the node. -/
structure Hosted (V σ : Type) where
  machine : Machine V
  object : σ
  deriving DecidableEq, Repr

/-- What happens to the node and the worker. -/
inductive HostedAction (V κ : Type) where
  /-- a method of the node is called -/
  | command (c : κ)
  /-- what others do -/
  | worker (a : Action V)
  deriving DecidableEq, Repr

/-- The methods of a node: what `bang` does with an event of the node, and what the
calls from outside do. -/
structure NodeMethods (V σ κ : Type) where
  me : NodeId
  bang : Event V → Hosted V σ → Hosted V σ
  command : κ → Hosted V σ → Except Fault (Hosted V σ)

namespace Hosted

variable {V σ κ : Type} [DecidableEq V]

/-- The handler of the event, if there is one, starts. -/
def wake (methods : NodeMethods V σ κ) (e : Option (Event V)) (h : Hosted V σ) : Hosted V σ :=
  match e with
  | some e => methods.bang e h
  | none => h

/-- One step. -/
def step (methods : NodeMethods V σ κ) (h : Hosted V σ) :
    HostedAction V κ → Except Fault (Hosted V σ)
  | .command c =>
      if runsOwn methods.me h.machine then .error .notEnabled else methods.command c h
  | .worker a =>
      if foreign methods.me a then
        match h.machine.step a with
        | .error fault => .error fault
        | .ok m => .ok (wake methods (woken methods.me h.machine a m) { h with machine := m })
      else .error .notEnabled

variable {methods : NodeMethods V σ κ} {h h' : Hosted V σ}

theorem step_command {c : κ} (hstep : step methods h (.command c) = .ok h') :
    runsOwn methods.me h.machine = false ∧ methods.command c h = .ok h' := by
  simp only [step] at hstep
  split at hstep
  · cases hstep
  · rename_i hruns
    exact ⟨by simpa using hruns, hstep⟩

theorem step_worker {a : Action V} (hstep : step methods h (.worker a) = .ok h') :
    foreign methods.me a = true ∧ ∃ m, h.machine.step a = .ok m ∧
      h' = wake methods (woken methods.me h.machine a m) { h with machine := m } := by
  simp only [step] at hstep
  split at hstep
  · rename_i hforeign
    split at hstep
    · cases hstep
    · rename_i m hm
      exact ⟨hforeign, m, hm, (Except.ok.inj hstep).symm⟩
  · cases hstep

end Hosted

end Rubyk
