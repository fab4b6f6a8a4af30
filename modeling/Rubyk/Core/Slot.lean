/-
  Core/Slot.lean --- `Slot` of `src/core/slot.h` and `src/core/slot.cpp`, with what
  `Inlet`, `Outlet` and `Node` do to their slots.

  WHAT IS MODELLED.  The nodes and slots are objects that point to each other, so
  the state is a heap: `slots` and `nodes` say what lives at an address.  A link
  between two slots is stored twice, in the `connections_` list of each, and the
  lists are kept in order by a comparison that reads the keys (`id_`, and the
  `trigger_position_` of the node) through the pointers at the time of the call.

  FROM OSCIT.  `type()` and `can_receive` belong to `Object`.  `T` is the type of
  the slots' types, `noType` recognises `NO_TYPE_TAG_ID`, and `canReceive t t'` says
  whether an object of type `t` can receive the first element of `t'`.

  DEAD POINTERS.  The comparison of two slots is only defined when both live.  No
  reachable state compares a dead one: see `alive` in `Core/LinkGraph.lean`.
-/
import Rubyk.Core.OrderedList
import Rubyk.Core.Worker

set_option autoImplicit false

namespace Rubyk

/-- Address of a `Slot`. -/
abbrev SlotId := Nat

/-- Whether a `Slot` is an `Inlet` or an `Outlet`. -/
inductive SlotKind where
  | inlet
  | outlet
  deriving DecidableEq, Repr

/-- `Slot`. -/
structure Slot (T : Type) where
  kind : SlotKind
  node : NodeId
  type : T
  id : Int
  connections : List SlotId
  deriving DecidableEq, Repr

/-- What `Node` says about its slots. -/
structure Node where
  triggerPosition : ℚ
  inlets : List SlotId
  outlets : List SlotId
  deriving DecidableEq, Repr

/-- The vector of the node that slots of this kind are registered in. -/
def Node.slotsOf (node : Node) : SlotKind → List SlotId
  | .inlet => node.inlets
  | .outlet => node.outlets

/-- Write this vector. -/
def Node.setSlotsOf (node : Node) (kind : SlotKind) (l : List SlotId) : Node :=
  match kind with
  | .inlet => { node with inlets := l }
  | .outlet => { node with outlets := l }

/-- The live nodes and slots, and `Node::sIdCounter`. -/
structure SlotGraph (T : Type) where
  slots : SlotId → Option (Slot T)
  nodes : NodeId → Option Node
  sIdCounter : Nat

/-- An action that cannot be performed in this state: a dead or taken address. -/
inductive BadAddress where
  | notLive
  | taken
  | sameSlot
  deriving DecidableEq, Repr

/-- What can be done to slots. -/
inductive SlotAction (T : Type) where
  | newNode (n : NodeId)
  | newSlot (kind : SlotKind) (s : SlotId) (n : NodeId) (type : T)
  | connect (s t : SlotId)
  | disconnect (s t : SlotId)
  | setId (s : SlotId) (id : Int)
  | setTriggerPosition (n : NodeId) (value : ℚ)
  | destroy (s : SlotId)
  deriving DecidableEq, Repr

namespace SlotGraph

variable {T : Type}

/-- Nothing has been built. -/
def empty : SlotGraph T where
  slots _ := none
  nodes _ := none
  sIdCounter := 0

/-- The `connections_` of a slot. -/
def connections (g : SlotGraph T) (s : SlotId) : List SlotId :=
  match g.slots s with
  | some slot => slot.connections
  | none => []

/-- `Node::trigger_position`. -/
def triggerPosition (g : SlotGraph T) (n : NodeId) : ℚ :=
  match g.nodes n with
  | some node => node.triggerPosition
  | none => 0

/-- `Slot::operator>=`. -/
def ge (g : SlotGraph T) (s t : SlotId) : Bool :=
  match g.slots s, g.slots t with
  | some slot, some other =>
      if slot.node = other.node then decide (slot.id < other.id)
      else decide (g.triggerPosition slot.node < g.triggerPosition other.node)
  | _, _ => false

/-- `Outlet::send`: the inlets that receive the value, in the order they do. -/
def send (g : SlotGraph T) (s : SlotId) : List SlotId := OrderedList.begin (g.connections s)

/-- Write to the object at `s`. -/
def modifySlot (g : SlotGraph T) (s : SlotId) (f : Slot T → Slot T) : SlotGraph T :=
  { g with slots := Function.update g.slots s ((g.slots s).map f) }

/-- Write to the `connections_` of a slot. -/
def modifyConnections (g : SlotGraph T) (s : SlotId) (f : List SlotId → List SlotId) :
    SlotGraph T :=
  g.modifySlot s fun slot => { slot with connections := f slot.connections }

/-- Write to the object at `n`. -/
def modifyNode (g : SlotGraph T) (n : NodeId) (f : Node → Node) : SlotGraph T :=
  { g with nodes := Function.update g.nodes n ((g.nodes n).map f) }

/-! ## `Slot` -/

/-- `Slot::sort_connections`. -/
def sortConnections (g : SlotGraph T) (s : SlotId) : SlotGraph T :=
  g.modifyConnections s (OrderedList.sort g.ge)

/-- `Slot::sort_incoming_connections`. -/
def sortIncomingConnections (g : SlotGraph T) (s : SlotId) : SlotGraph T :=
  (OrderedList.begin (g.connections s)).foldl sortConnections g

/-- `Slot::set_id`. -/
def setId (g : SlotGraph T) (s : SlotId) (id : Int) : SlotGraph T :=
  (g.modifySlot s fun slot => { slot with id := id }).sortIncomingConnections s

/-- The test of `Slot::add_connection`. -/
def compatible (noType : T → Bool) (canReceive : T → T → Bool) (slot other : Slot T) : Bool :=
  if noType slot.type || noType other.type then false
  else
    (decide (slot.kind = .inlet) && canReceive slot.type other.type) ||
      (decide (other.kind = .inlet) && canReceive other.type slot.type)

/-- `Slot::add_connection`. -/
def addConnection (noType : T → Bool) (canReceive : T → T → Bool) (g : SlotGraph T)
    (s t : SlotId) : Bool × SlotGraph T :=
  match g.slots s, g.slots t with
  | some slot, some other =>
      if compatible noType canReceive slot other then
        (true, g.modifyConnections s (OrderedList.push g.ge t))
      else (false, g)
  | _, _ => (false, g)

/-- `Slot::remove_connection`. -/
def removeConnection (g : SlotGraph T) (s t : SlotId) : SlotGraph T :=
  g.modifyConnections s fun l => (OrderedList.remove t l).2

/-- `Slot::connect`. -/
def connect (noType : T → Bool) (canReceive : T → T → Bool) (g : SlotGraph T)
    (s t : SlotId) : Bool × SlotGraph T :=
  match addConnection noType canReceive g s t with
  | (true, g) => (true, (addConnection noType canReceive g t s).2)
  | (false, g) => (false, g)

/-- `Slot::disconnect`. -/
def disconnect (g : SlotGraph T) (s t : SlotId) : SlotGraph T :=
  (g.removeConnection s t).removeConnection t s

/-- The loop of `Slot::~Slot`: the head of the list forgets `s`, then leaves it.  A
slot is not in its own list, so what is left of the list is its tail. -/
def removeFromConnections (s : SlotId) : List SlotId → SlotGraph T → SlotGraph T
  | [], g => g
  | t :: rest, g =>
      removeFromConnections s rest ((g.removeConnection t s).modifyConnections s OrderedList.pop)

/-! ## `Node`, `Inlet` and `Outlet` -/

/-- `Node::Node` at address `n`. -/
def newNode (g : SlotGraph T) (n : NodeId) : SlotGraph T :=
  { g with
    sIdCounter := g.sIdCounter + 1
    nodes := Function.update g.nodes n (some ⟨(g.sIdCounter + 1 : Nat), [], []⟩) }

/-- `Node::register_inlet` and `Node::register_outlet`: the new slot gets the size of
the vector for id. -/
def registerIn (g : SlotGraph T) (n : NodeId) (kind : SlotKind) (s : SlotId) : SlotGraph T :=
  match g.nodes n with
  | some node =>
      (g.setId s (node.slotsOf kind).length).modifyNode n fun node =>
        node.setSlotsOf kind (node.slotsOf kind ++ [s])
  | none => g

/-- `Inlet::Inlet` and `Outlet::Outlet` at address `s`; `id_` is written before it is
read. -/
def newSlot (g : SlotGraph T) (kind : SlotKind) (s : SlotId) (n : NodeId) (type : T) :
    SlotGraph T :=
  { g with slots := Function.update g.slots s (some ⟨kind, n, type, 0, []⟩) }.registerIn
    n kind s

/-- `Node::unregister_inlet` and `Node::unregister_outlet`. -/
def unregisterIn (g : SlotGraph T) (n : NodeId) (kind : SlotKind) (s : SlotId) : SlotGraph T :=
  g.modifyNode n fun node => node.setSlotsOf kind ((node.slotsOf kind).erase s)

/-- `Inlet::~Inlet` and `Outlet::~Outlet`, followed by `Slot::~Slot`. -/
def destroy (g : SlotGraph T) (s : SlotId) : SlotGraph T :=
  match g.slots s with
  | some slot =>
      let g := g.unregisterIn slot.node slot.kind s
      let g := removeFromConnections s slot.connections g
      { g with slots := Function.update g.slots s none }
  | none => g

/-- `Node::sort_connections`. -/
def sortNode (g : SlotGraph T) (n : NodeId) : SlotGraph T :=
  match g.nodes n with
  | some node => node.inlets.foldl sortIncomingConnections g
  | none => g

/-- `Node::set_trigger_position`. -/
def setTriggerPosition (g : SlotGraph T) (n : NodeId) (value : ℚ) : SlotGraph T :=
  (g.modifyNode n fun node => { node with triggerPosition := value }).sortNode n

/-! ## Steps -/

/-- One operation.  The caller passes live objects; a constructor gets memory that
no live object occupies; a slot is not linked with itself. -/
def step (noType : T → Bool) (canReceive : T → T → Bool) (g : SlotGraph T) :
    SlotAction T → Except BadAddress (SlotGraph T)
  | .newNode n =>
      if (g.nodes n).isSome then .error .taken else .ok (g.newNode n)
  | .newSlot kind s n type =>
      if (g.slots s).isSome then .error .taken
      else if (g.nodes n).isNone then .error .notLive
      else .ok (g.newSlot kind s n type)
  | .connect s t =>
      if s = t then .error .sameSlot
      else if (g.slots s).isNone || (g.slots t).isNone then .error .notLive
      else .ok (connect noType canReceive g s t).2
  | .disconnect s t =>
      if s = t then .error .sameSlot
      else if (g.slots s).isNone || (g.slots t).isNone then .error .notLive
      else .ok (g.disconnect s t)
  | .setId s id => if (g.slots s).isNone then .error .notLive else .ok (g.setId s id)
  | .setTriggerPosition n value =>
      if (g.nodes n).isNone then .error .notLive else .ok (g.setTriggerPosition n value)
  | .destroy s => if (g.slots s).isNone then .error .notLive else .ok (g.destroy s)

end SlotGraph

end Rubyk
