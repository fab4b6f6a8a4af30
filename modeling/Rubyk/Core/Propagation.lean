/-
  Core/Propagation.lean --- how a value travels through a patch: `Node::send` of
  `src/core/node.h`, `Outlet::send` of `src/core/outlet.cpp` and `Inlet::receive` of
  `src/core/inlet.h`, calling each other.

  WHAT IS MODELLED.  The three functions call each other on the C++ stack: a method of a
  node sends, `Outlet::send` calls the method of every inlet that is connected, and that
  method may send before it returns.  A method is a parameter.  It works on the members
  of its own node, and after each `send` it goes on with the members as they are then,
  since a loop may have brought the value back to its node.

  FUEL.  `fuel` bounds how deep the calls are nested.  No answer means that it was too
  little, or that a pointer was dead; no reachable state has a dead pointer in a list.

  LEFT OUT.  Methods that change the links or the objects while a value travels.
-/
import Mathlib.Data.Set.Finite.Lattice
import Rubyk.Lib.Descent
import Rubyk.Core.NodeSlots
import Rubyk.Core.SendingOrder

set_option autoImplicit false

namespace Rubyk

open Lib SlotGraph

/-- What the method of an inlet does.  `σ` are the members of the node. -/
inductive Method (σ V : Type) where
  | ret (members : σ)
  /-- write the members, `send(port, val)`, then go on with the members at that time -/
  | send (members : σ) (port : Nat) (val : V) (rest : σ → Method σ V)

/-- A call of `Inlet::receive` by `Outlet::send`. -/
structure Delivery (V : Type) where
  outlet : SlotId
  inlet : SlotId
  val : V
  deriving DecidableEq, Repr

/-- The members of all nodes, and what was delivered. -/
structure World (σ V : Type) where
  members : NodeId → σ
  log : List (Delivery V)

/-- The links, and `method_` of every inlet. -/
structure Patch (T σ V : Type) where
  graph : SlotGraph T
  method : SlotId → V → σ → Method σ V

namespace World

variable {σ V : Type}

/-- Write the members of a node. -/
def write (w : World σ V) (n : NodeId) (members : σ) : World σ V :=
  { w with members := Function.update w.members n members }

/-- Note a delivery. -/
def deliver (w : World σ V) (o i : SlotId) (val : V) : World σ V :=
  { w with log := w.log ++ [⟨o, i, val⟩] }

end World

namespace SlotGraph

variable {T : Type}

/-- `outlets_[port - 1]`, where `Node::send` does not give up. -/
def outletAt (g : SlotGraph T) (n : NodeId) (port : Nat) : Option SlotId :=
  match g.nodes n with
  | some node => if port > node.outlets.length || port < 1 then none else node.outlets[port - 1]?
  | none => none

/-- What a node sends can arrive at the other in one step. -/
def Feeds (g : SlotGraph T) (n m : NodeId) : Prop :=
  ∃ port o, g.outletAt n port = some o ∧
    ∃ i ∈ g.send o, ∃ slot, g.slots i = some slot ∧ slot.node = m

/-- Something that `n` sends can come back to a node it passed. -/
def LoopsFrom (g : SlotGraph T) (n : NodeId) : Prop :=
  ∃ m, Relation.ReflTransGen g.Feeds n m ∧ Relation.TransGen g.Feeds m m

end SlotGraph

namespace Patch

variable {T σ V : Type} (p : Patch T σ V)

section Functions

variable (receive : SlotId → V → World σ V → Option (World σ V))

/-- The loop of `Outlet::send`. -/
def sendLoop (o : SlotId) (val : V) : List SlotId → World σ V → Option (World σ V)
  | [], w => some w
  | i :: iterator, w => do
      let w ← receive i val (w.deliver o i val)
      sendLoop o val iterator w

/-- `Node::send`, with `Outlet::send`. -/
def send (n : NodeId) (port : Nat) (val : V) (w : World σ V) : Option (World σ V) :=
  match p.graph.outletAt n port with
  | some o => sendLoop receive o val (p.graph.send o) w
  | none => some w

/-- The rest of a method of `n`. -/
def run (n : NodeId) : Method σ V → World σ V → Option (World σ V)
  | .ret members, w => some (w.write n members)
  | .send members port val rest, w => do
      let w ← p.send receive n port val (w.write n members)
      run n (rest (w.members n)) w

end Functions

/-- `Inlet::receive`. -/
def receive : Nat → SlotId → V → World σ V → Option (World σ V)
  | 0, _, _, _ => none
  | fuel + 1, i, val, w =>
      match p.graph.slots i with
      | some slot => p.run (receive fuel) slot.node (p.method i val (w.members slot.node)) w
      | none => none

end Patch

namespace SlotGraph

variable {T : Type} {noType : T → Bool} {canReceive : T → T → Bool} {g g' : SlotGraph T}
  {n m : NodeId} {o i s : SlotId} {port : Nat}

/-! ## The patch -/

/-- The outlets that a node sends through. -/
def Owns (g : SlotGraph T) (n : NodeId) (o : SlotId) : Prop := ∃ port, g.outletAt n port = some o

theorem Owns.mem (h : g.Owns n o) : o ∈ g.slotsIn n .outlet := by
  obtain ⟨port, h⟩ := h
  unfold outletAt at h
  split at h
  · rename_i node hnode
    split at h
    · cases h
    · simpa [slotsIn, hnode, Node.slotsOf] using List.mem_of_getElem? h
  · cases h

theorem Owns.eq (hvec : Vectors g) (hn : g.Owns n o) (hm : g.Owns m o) : n = m := by
  have hhome := hvec.home n .outlet o hn.mem
  rw [hvec.home m .outlet o hm.mem] at hhome
  exact (congrArg Prod.fst (Option.some.inj hhome)).symm

theorem feeds_of_send {slot : Slot T} (ho : g.Owns n o) (hi : i ∈ g.send o)
    (hslot : g.slots i = some slot) : g.Feeds n slot.node := by
  obtain ⟨port, ho⟩ := ho
  exact ⟨port, o, ho, i, hi, slot, hslot, rfl⟩

/-- What keeps the kinds of the slots keeps the set of live ones. -/
theorem finite_of_kindOf (hkind : ∀ s, g'.kindOf s = g.kindOf s)
    (hfin : {s | (g.slots s).isSome}.Finite) : {s | (g'.slots s).isSome}.Finite := by
  refine hfin.subset fun s hs => ?_
  rw [Set.mem_ofPred_eq, ← isSome_kindOf, hkind, isSome_kindOf] at hs
  exact hs

/-- Finitely many slots are alive. -/
theorem finite_slots {acts : List (SlotAction T)}
    (h : Lib.Run (Lib.StepOf (step noType canReceive)) empty acts g) :
    {s | (g.slots s).isSome}.Finite := by
  refine h.invariant (fun g => {s | (g.slots s).isSome}.Finite) ?_ (by simp [empty])
  intro g a g' hfin hstep
  have hdone := performed hstep
  cases a with
  | newNode n =>
    obtain ⟨-, rfl⟩ := hdone
    exact hfin
  | newSlot kind s n type =>
    obtain ⟨-, hn, rfl⟩ := hdone
    refine (hfin.insert s).subset fun t ht => ?_
    by_cases hts : t = s
    · exact Or.inl hts
    · have hsame := (samePlace_newSlot hn kind type hts).kindOf
      rw [Set.mem_ofPred_eq, ← isSome_kindOf, hsame, isSome_kindOf] at ht
      exact Or.inr ht
  | connect s t =>
    obtain ⟨-, rfl⟩ := hdone
    exact finite_of_kindOf (sameKeys_connect noType canReceive g s t).kindOf hfin
  | disconnect s t =>
    obtain ⟨-, rfl⟩ := hdone
    exact finite_of_kindOf sameKeys_disconnect.kindOf hfin
  | setId s id =>
    obtain rfl := hdone
    refine finite_of_kindOf (fun t => ?_) hfin
    exact ((resorted_sortIncomingConnections _ s).kindOf t).trans
      (kindOf_modifySlot fun _ => rfl)
  | setTriggerPosition n value =>
    obtain rfl := hdone
    exact finite_of_kindOf (resorted_sortNode _ n).kindOf hfin
  | destroy s =>
    obtain rfl := hdone
    refine hfin.subset fun t ht => ?_
    by_cases hts : t = s
    · subst hts
      simp [slots_destroy_self] at ht
    · have hsame := (samePlace_destroy (g := g) hts).kindOf
      rw [Set.mem_ofPred_eq, ← isSome_kindOf, hsame, isSome_kindOf] at ht
      exact ht

/-- A value only gets to nodes with live inlets. -/
theorem finite_reached (hfin : {s | (g.slots s).isSome}.Finite) (n : NodeId) :
    {m | Relation.ReflTransGen g.Feeds n m}.Finite := by
  let nodeOf : SlotId → NodeId := fun s => ((g.slots s).map Slot.node).getD 0
  refine ((hfin.image nodeOf).insert n).subset fun m hm => ?_
  rcases Relation.ReflTransGen.cases_tail hm with rfl | ⟨k, -, -, -, -, i, -, slot, hslot, rfl⟩
  · exact Or.inl rfl
  · exact Or.inr ⟨i, by simp [hslot], by simp [nodeOf, hslot]⟩

end SlotGraph

/-! ## More fuel -/

namespace Patch

variable {T σ V : Type} {p : Patch T σ V}
  {receive receive' : SlotId → V → World σ V → Option (World σ V)}

theorem sendLoop_mono (hle : ∀ i val w w', receive i val w = some w' → receive' i val w = some w')
    {o : SlotId} {val : V} {l : List SlotId} {w w' : World σ V}
    (h : sendLoop receive o val l w = some w') : sendLoop receive' o val l w = some w' := by
  induction l generalizing w with
  | nil => exact h
  | cons i l ih =>
    obtain ⟨w₁, hw₁, hrest⟩ := Option.bind_eq_some_iff.mp h
    exact Option.bind_eq_some_iff.mpr ⟨w₁, hle _ _ _ _ hw₁, ih hrest⟩

theorem send_mono (hle : ∀ i val w w', receive i val w = some w' → receive' i val w = some w')
    {n : NodeId} {port : Nat} {val : V} {w w' : World σ V}
    (h : p.send receive n port val w = some w') : p.send receive' n port val w = some w' := by
  unfold Patch.send at h ⊢
  cases ho : p.graph.outletAt n port with
  | none => simpa [ho] using h
  | some o => exact sendLoop_mono hle (by simpa [ho] using h)

theorem run_mono (hle : ∀ i val w w', receive i val w = some w' → receive' i val w = some w')
    {n : NodeId} {body : Method σ V} {w w' : World σ V}
    (h : p.run receive n body w = some w') : p.run receive' n body w = some w' := by
  induction body generalizing w with
  | ret members => exact h
  | send members port val rest ih =>
    obtain ⟨w₁, hw₁, hrest⟩ := Option.bind_eq_some_iff.mp h
    exact Option.bind_eq_some_iff.mpr ⟨w₁, send_mono hle hw₁, ih _ hrest⟩

/-- A call that returned returns the same with more fuel. -/
theorem receive_mono {fuel more : Nat} (hle : fuel ≤ more) (i : SlotId) (val : V)
    (w w' : World σ V) (h : p.receive fuel i val w = some w') :
    p.receive more i val w = some w' := by
  induction fuel generalizing more i val w w' with
  | zero => cases h
  | succ fuel ih =>
    obtain ⟨more, rfl⟩ : ∃ k, more = k + 1 := ⟨more - 1, by omega⟩
    simp only [receive] at h ⊢
    cases hslot : p.graph.slots i with
    | none => simp [hslot] at h
    | some slot =>
      simp only [hslot] at h ⊢
      exact run_mono (ih (by omega)) h

end Patch

/-! ## What a call does -/

namespace Patch

variable {T σ V : Type} {p : Patch T σ V} {g : SlotGraph T} {n m : NodeId} {o i : SlotId}
  {val : V} {w w' w'' : World σ V}

/-- What happens while a call runs: it writes nodes that `Writes` holds of, and delivers
along links, from outlets of nodes that `Sends` holds of. -/
structure Confined (g : SlotGraph T) (Writes Sends : NodeId → Prop) (w w' : World σ V) : Prop where
  members : ∀ m, ¬ Writes m → w'.members m = w.members m
  log : ∃ sent, w'.log = w.log ++ sent ∧
    ∀ d ∈ sent, d.inlet ∈ g.send d.outlet ∧ ∃ m, Sends m ∧ g.Owns m d.outlet

namespace Confined

variable {Writes Writes' Sends Sends' : NodeId → Prop}

theorem refl (g : SlotGraph T) (Writes Sends : NodeId → Prop) (w : World σ V) :
    Confined g Writes Sends w w :=
  ⟨fun _ _ => rfl, [], by simp, by simp⟩

theorem trans (h : Confined g Writes Sends w w') (h' : Confined g Writes Sends w' w'') :
    Confined g Writes Sends w w'' := by
  obtain ⟨sent, hlog, hsent⟩ := h.log
  obtain ⟨sent', hlog', hsent'⟩ := h'.log
  refine ⟨fun m hm => (h'.members m hm).trans (h.members m hm), sent ++ sent', ?_, ?_⟩
  · rw [hlog', hlog, List.append_assoc]
  · intro d hd
    rcases List.mem_append.mp hd with hd | hd
    exacts [hsent d hd, hsent' d hd]

theorem mono (h : Confined g Writes Sends w w') (hwrites : ∀ m, Writes m → Writes' m)
    (hsends : ∀ m, Sends m → Sends' m) : Confined g Writes' Sends' w w' := by
  obtain ⟨sent, hlog, hsent⟩ := h.log
  refine ⟨fun m hm => h.members m fun hw => hm (hwrites m hw), sent, hlog, fun d hd => ?_⟩
  obtain ⟨hlink, m, hm, hown⟩ := hsent d hd
  exact ⟨hlink, m, hsends m hm, hown⟩

theorem write (hn : Writes n) (members : σ) : Confined g Writes Sends w (w.write n members) := by
  refine ⟨fun m hm => ?_, [], by simp [World.write], by simp⟩
  have hne : m ≠ n := by
    rintro rfl
    exact hm hn
  simp [World.write, hne]

end Confined

/-- What `Outlet::send` does from an outlet of `n`, where every inlet does what it may. -/
theorem sendLoop_spec {receive : SlotId → V → World σ V → Option (World σ V)}
    {l : List SlotId} (val : V) (hown : g.Owns n o) (hl : ∀ i ∈ l, i ∈ g.send o)
    (hreceive : ∀ i ∈ l, ∀ w, ∃ w', receive i val w = some w' ∧
      Confined g (Relation.TransGen g.Feeds n) (Relation.TransGen g.Feeds n) w w')
    (w : World σ V) :
    ∃ w', sendLoop receive o val l w = some w' ∧
      (∀ m, ¬ Relation.TransGen g.Feeds n m → w'.members m = w.members m) ∧
      ∃ sent, w'.log = w.log ++ sent ∧
        (∀ d ∈ sent, d.inlet ∈ g.send d.outlet ∧
          ∃ m, Relation.ReflTransGen g.Feeds n m ∧ g.Owns m d.outlet) ∧
        ((∀ m, Relation.TransGen g.Feeds n m → ¬ g.Owns m o) →
          sent.filter (fun d => d.outlet = o) = l.map fun i => ⟨o, i, val⟩) := by
  induction l generalizing w with
  | nil => exact ⟨w, rfl, fun _ _ => rfl, [], by simp, by simp, fun _ => rfl⟩
  | cons i l ih =>
    obtain ⟨w₁, hw₁, hconf⟩ := hreceive i (by simp) (w.deliver o i val)
    obtain ⟨sent₁, hlog₁, hsent₁⟩ := hconf.log
    obtain ⟨w₂, hw₂, hmem₂, sent₂, hlog₂, hsent₂, honce₂⟩ :=
      ih (fun j hj => hl j (by simp [hj])) (fun j hj => hreceive j (by simp [hj])) w₁
    refine ⟨w₂, by simp [sendLoop, hw₁, hw₂], fun m hm => ?_, ⟨o, i, val⟩ :: sent₁ ++ sent₂,
      ?_, fun d hd => ?_, fun halone => ?_⟩
    · rw [hmem₂ m hm, hconf.members m hm]
      rfl
    · simp [hlog₂, hlog₁, World.deliver]
    · simp only [List.cons_append, List.mem_cons, List.mem_append] at hd
      rcases hd with rfl | hd | hd
      · exact ⟨hl i (by simp), n, .refl, hown⟩
      · obtain ⟨hlink, m, hm, hown⟩ := hsent₁ d hd
        exact ⟨hlink, m, hm.to_reflTransGen, hown⟩
      · exact hsent₂ d hd
    · -- what the receiver sends on does not leave through this outlet
      have hnone : sent₁.filter (fun d => d.outlet = o) = [] := by
        refine List.filter_eq_nil_iff.mpr fun d hd heq => ?_
        obtain ⟨-, m, hm, hown⟩ := hsent₁ d hd
        exact halone m hm ((of_decide_eq_true heq) ▸ hown)
      simp [hnone, honce₂ halone]

/-- A call of `Node::send`, where the inlets it reaches return. -/
theorem send_spec {receive : SlotId → V → World σ V → Option (World σ V)}
    (hlinked : Linked p.graph)
    (hreceive : ∀ i slot, p.graph.slots i = some slot → p.graph.Feeds n slot.node →
      ∀ val w, ∃ w', receive i val w = some w' ∧
        Confined p.graph (Relation.ReflTransGen p.graph.Feeds slot.node)
          (Relation.ReflTransGen p.graph.Feeds slot.node) w w')
    (port : Nat) (val : V) (w : World σ V) :
    ∃ w', p.send receive n port val w = some w' ∧
      Confined p.graph (Relation.TransGen p.graph.Feeds n)
        (Relation.ReflTransGen p.graph.Feeds n) w w' ∧
      ∀ o, p.graph.outletAt n port = some o →
        (∀ m, Relation.TransGen p.graph.Feeds n m → ¬ p.graph.Owns m o) →
        ∃ sent, w'.log = w.log ++ sent ∧
          sent.filter (fun d => d.outlet = o) = (p.graph.send o).map fun i => ⟨o, i, val⟩ := by
  unfold Patch.send
  cases ho : p.graph.outletAt n port with
  | none => exact ⟨w, rfl, .refl _ _ _ w, by simp⟩
  | some o =>
    have hown : p.graph.Owns n o := ⟨port, ho⟩
    obtain ⟨w', hw', hmem, sent, hlog, hsent, honce⟩ :=
      sendLoop_spec val hown (fun i (hi : i ∈ p.graph.send o) => hi) (fun i hi w => by
        obtain ⟨slot, hslot⟩ := Option.isSome_iff_exists.mp (hlinked.alive o i hi)
        have hfeeds := SlotGraph.feeds_of_send hown hi hslot
        obtain ⟨w', hw', hconf⟩ := hreceive i slot hslot hfeeds val w
        have hafter : ∀ m, Relation.ReflTransGen p.graph.Feeds slot.node m →
            Relation.TransGen p.graph.Feeds n m := fun m hm => .head' hfeeds hm
        exact ⟨w', hw', hconf.mono hafter hafter⟩) w
    refine ⟨w', hw', ⟨hmem, sent, hlog, hsent⟩, ?_⟩
    rintro o' ho' halone
    obtain rfl := Option.some.inj ho'
    exact ⟨sent, hlog, honce halone⟩

/-- The rest of a method returns when every `send` does. -/
theorem run_spec {receive : SlotId → V → World σ V → Option (World σ V)}
    (hsend : ∀ port val w, ∃ w', p.send receive n port val w = some w' ∧
      Confined p.graph (Relation.TransGen p.graph.Feeds n)
        (Relation.ReflTransGen p.graph.Feeds n) w w')
    (body : Method σ V) (w : World σ V) :
    ∃ w', p.run receive n body w = some w' ∧
      Confined p.graph (Relation.ReflTransGen p.graph.Feeds n)
        (Relation.ReflTransGen p.graph.Feeds n) w w' := by
  induction body generalizing w with
  | ret members => exact ⟨_, rfl, .write .refl members⟩
  | send members port val rest ih =>
    obtain ⟨w₁, hw₁, hconf₁⟩ := hsend port val (w.write n members)
    obtain ⟨w₂, hw₂, hconf₂⟩ := ih (w₁.members n) w₁
    refine ⟨w₂, by simp [run, hw₁, hw₂], ?_⟩
    have hfirst := hconf₁.mono (fun m hm => hm.to_reflTransGen) fun _ hm => hm
    exact ((Confined.write .refl members).trans hfirst).trans hconf₂

/-- An inlet returns when the paths from its node have a bound, by induction on the
bound. -/
theorem receive_spec (hlinked : Linked p.graph) (fuel : Nat) {slot : Slot T}
    (hslot : p.graph.slots i = some slot) (hends : EndsWithin p.graph.Feeds fuel slot.node)
    (val : V) (w : World σ V) :
    ∃ w', p.receive fuel i val w = some w' ∧
      Confined p.graph (Relation.ReflTransGen p.graph.Feeds slot.node)
        (Relation.ReflTransGen p.graph.Feeds slot.node) w w' := by
  induction fuel generalizing i slot val w with
  | zero => exact hends.elim
  | succ fuel ih =>
    simp only [receive, hslot]
    refine run_spec (fun port val w => ?_) _ w
    obtain ⟨w', hw', hconf, -⟩ := send_spec hlinked
      (fun j other hother hfeeds => ih hother (hends _ hfeeds)) port val w
    exact ⟨w', hw', hconf⟩

/-- In every patch that can be built, and for all methods: a value that a node sends
where nothing it reaches can feed back comes to rest.  It changes only nodes behind the
outlet, the node itself keeps its members, every delivery goes along a link, and the
outlet's own deliveries are its connections, each once and in the order of the list. -/
theorem send_comes_to_rest {noType : T → Bool} {canReceive : T → T → Bool}
    {acts : List (SlotAction T)}
    (h : Run (StepOf (SlotGraph.step noType canReceive)) .empty acts p.graph)
    (hloop : ¬ p.graph.LoopsFrom n) :
    ∃ fuel, ∀ port val w, ∃ w',
      (∀ more ≥ fuel, p.send (p.receive more) n port val w = some w') ∧
      Confined p.graph (Relation.TransGen p.graph.Feeds n)
        (Relation.ReflTransGen p.graph.Feeds n) w w' ∧
      ∀ o, p.graph.outletAt n port = some o → ∃ sent, w'.log = w.log ++ sent ∧
        sent.filter (fun d => d.outlet = o) = (p.graph.send o).map fun i => ⟨o, i, val⟩ := by
  have hlinked := Linked.of_run h
  have hvec := Vectors.of_run h
  have hfin := SlotGraph.finite_reached (SlotGraph.finite_slots h) n
  obtain ⟨fuel, hends⟩ := (endsWithin_iff_no_cycle_of_finite hfin).mpr hloop
  refine ⟨fuel, fun port val w => ?_⟩
  have hreceive (i : SlotId) (slot : Slot T) (hslot : p.graph.slots i = some slot)
      (hfeeds : p.graph.Feeds n slot.node) :=
    receive_spec hlinked fuel hslot (hends.trans (.single hfeeds))
  obtain ⟨w', hw', hconf, honce⟩ := send_spec hlinked hreceive port val w
  refine ⟨w', fun more hmore => send_mono (receive_mono hmore) hw', hconf, fun o ho => ?_⟩
  refine honce o ho fun m hm hown => ?_
  -- an outlet that is met again would close a loop
  obtain rfl := SlotGraph.Owns.eq hvec ⟨port, ho⟩ hown
  exact hloop ⟨n, .refl, hm⟩

/-- What the actions build, where all types fit. -/
def built (acts : List (SlotAction Unit)) : SlotGraph Unit :=
  ((acts.foldlM (SlotGraph.step (fun _ => false) fun _ _ => true) .empty).toOption).getD .empty

/-- The links of `linkAndSwap`: from node `0` to the nodes `1` and `2`, which have no
outlet; a method keeps what it gets and sends it on. -/
def forwarding : Patch Unit Nat Nat where
  graph := built SlotGraph.linkAndSwap
  method _ val _ := .send val 1 val .ret

theorem send_comes_to_rest_forwarding : ∃ fuel, ∃ w' : World Nat Nat,
    (∀ more ≥ fuel, forwarding.send (forwarding.receive more) 0 1 7 ⟨fun _ => 0, []⟩ = some w') ∧
    w'.members 0 = 0 ∧ ∃ sent, w'.log = [] ++ sent ∧
      sent.filter (fun d => d.outlet = 10) = [⟨10, 13, 7⟩, ⟨10, 11, 7⟩, ⟨10, 12, 7⟩] := by
  have hrun : Run (StepOf (SlotGraph.step (fun _ => false) fun _ _ => true)) .empty
      SlotGraph.linkAndSwap forwarding.graph := Run.of_foldlM rfl
  have hends : EndsWithin forwarding.graph.Feeds 2 0 := by
    rintro m ⟨port, o, ho, i, hi, slot, hslot, rfl⟩ k ⟨port', o', ho', -⟩
    have hmem : o ∈ [10] := SlotGraph.Owns.mem ⟨port, ho⟩
    obtain rfl := List.mem_singleton.mp hmem
    have hleaf : ∀ i ∈ [13, 11, 12], ((forwarding.graph.slots i).map fun slot =>
        forwarding.graph.slotsIn slot.node .outlet) = some [] := by decide
    have hnone : forwarding.graph.slotsIn slot.node .outlet = [] := by
      simpa [hslot] using hleaf i hi
    have hmem' := SlotGraph.Owns.mem ⟨port', ho'⟩
    rw [hnone] at hmem'
    exact absurd hmem' List.not_mem_nil
  have hloop : ¬ forwarding.graph.LoopsFrom 0 := fun ⟨m, hm, hcycle⟩ =>
    (hends.trans hm).not_transGen hcycle
  obtain ⟨fuel, hrest⟩ := send_comes_to_rest hrun hloop
  obtain ⟨w', hw', hconf, honce⟩ := hrest 1 7 ⟨fun _ => 0, []⟩
  exact ⟨fuel, w', hw', hconf.members 0 fun hcycle => hloop ⟨0, .refl, hcycle⟩, honce 10 rfl⟩

end Patch

end Rubyk
