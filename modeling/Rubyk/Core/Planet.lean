/-
  Core/Planet.lean --- the links of `Planet` (`src/core/planet.h`,
  `src/core/planet.cpp`) and `Slot::change_link` (`src/core/slot.cpp`).

  WHAT IS MODELLED.  `/rubyk/link` is one method with three uses.  A list of three
  strings `[source, op, target]` is a request, `=>` or `||`; the same list with
  `?` for operator is what the planet keeps for later when one of the two urls
  leads nowhere; and nil asks it to try again everything it kept.  Trying again is
  a call of the same method with the list that was kept.

  FROM OSCIT.  The tree of objects belongs to oscit: `Root` is what a tree answers
  to the four questions asked here.  An object is a `Slot` when the graph of slots
  has one at its address.  `to_json` of a string is a parameter.

  UNDEFINED BEHAVIOUR.  One error text is built with the url of a slot that was
  just found to be null.  That is a fault of the step.
-/
import Rubyk.Core.SlotSteps
import Rubyk.Lib.Runs

set_option autoImplicit false

namespace Rubyk

/-- Address of an `Object`.  Slots are objects. -/
abbrev ObjectId := SlotId

/-- What the tree of objects answers. -/
structure Root where
  /-- `Root::object_at`; the error it sets when it finds nothing is not read -/
  objectAt : String → Option ObjectId
  /-- `Object::child` -/
  child : ObjectId → String → Option ObjectId
  /-- `Object::first_child` -/
  firstChild : ObjectId → Option ObjectId
  /-- `Object::url` -/
  url : ObjectId → String

/-- The rest of what oscit decides. -/
structure Oscit (T : Type) where
  noType : T → Bool
  canReceive : T → T → Bool
  toJson : String → String

/-- A `Value` with type tag `sss`, as `/rubyk/link` takes and returns it. -/
structure LinkValue where
  source : String
  op : String
  target : String
  deriving DecidableEq, Repr

/-- The codes of the errors below. -/
inductive ErrorCode where
  | badRequest
  | notFound
  deriving DecidableEq, Repr

/-- What a call of `/rubyk/link` with a request returns. -/
inductive LinkAnswer where
  | nil
  | sss (val : LinkValue)
  | error (code : ErrorCode) (text : String)
  deriving DecidableEq, Repr

/-- The operation of `change_link`: `'c'` or `'d'`. -/
inductive LinkOperation where
  | create
  | disconnect
  deriving DecidableEq, Repr

/-! ## `Slot::change_link` -/

namespace SlotGraph

variable {T : Type}

/-- `TYPE_CAST(Slot, object)` succeeds. -/
def isSlot (g : SlotGraph T) (object : ObjectId) : Bool := (g.slots object).isSome

/-- `object->kind_of(Inlet)` and `object->kind_of(Outlet)`. -/
def isKind (g : SlotGraph T) (kind : SlotKind) (object : ObjectId) : Bool :=
  match g.slots object with
  | some slot => decide (slot.kind = kind)
  | none => false

/-- The object that `change_link` takes for the one it found: a slot stands for
itself, anything else for the first child of its child `in`. -/
def linkTarget (root : Root) (g : SlotGraph T) (target : ObjectId) : Option ObjectId :=
  if g.isSlot target then some target
  else
    match root.child target "in" with
    | some target => root.firstChild target
    | none => none

/-- The kind `change_link` casts to: an outlet looks for an inlet, anything else for an
outlet. -/
def wantedKind (g : SlotGraph T) (s : ObjectId) : SlotKind :=
  if g.isKind .outlet s then .inlet else .outlet

/-- `Slot::change_link` on a string, that is `Slot::link` and `Slot::unlink`. -/
def changeLink (o : Oscit T) (root : Root) (g : SlotGraph T) (s : ObjectId)
    (operation : LinkOperation) (val : String) : LinkAnswer × SlotGraph T :=
  match root.objectAt val with
  | none => (.error .notFound val, g)
  | some target =>
      match linkTarget root g target with
      | none => (.error .notFound (val ++ ": slot not found"), g)
      | some target =>
          if g.isKind (g.wantedKind s) target then
            match operation with
            | .create =>
                match connect o.noType o.canReceive g s target with
                | (true, g) => (.sss ⟨root.url s, "=>", root.url target⟩, g)
                | (false, g) =>
                    (.error .badRequest
                      ("Could not make the connection with (" ++ o.toJson val ++ ")."), g)
            | .disconnect =>
                (.sss ⟨root.url s, "||", root.url target⟩, g.disconnect s target)
          else
            (.error .badRequest
              ("Could not update link with " ++ o.toJson val ++ ": incompatible)."), g)

end SlotGraph

/-! ## `Planet` -/

/-- What the history of a planet records: `create_pending_links` put this answer in
its list for this entry. -/
structure LinkObs where
  entry : LinkValue
  answer : LinkAnswer
  deriving DecidableEq, Repr

/-- The part of a `Planet` that links read and write.  No transition reads `log`. -/
structure Planet (T : Type) where
  root : Root
  graph : SlotGraph T
  pendingLinks : List LinkValue
  log : List LinkObs

/-- Undefined behaviour. -/
inductive PlanetFault where
  /-- `Planet::link` reads the url of a null slot -/
  | nullSlot
  /-- the loop of `create_pending_links` is cut; `createPendingLinks_ends` says it
  never is -/
  | unfinished
  deriving DecidableEq, Repr

/-- What happens to a planet. -/
inductive PlanetAction (T : Type) where
  /-- `/rubyk/link` with a request -/
  | link (val : LinkValue)
  /-- `/rubyk/link` with nil -/
  | createPendingLinks
  /-- the tree changes: objects are created, and then all of oscit may answer
  differently -/
  | objects (root : Root) (graph : SlotGraph T)

namespace Planet

variable {T : Type}

/-- A new planet, before anything is asked of it. -/
def init (root : Root) (graph : SlotGraph T) : Planet T := ⟨root, graph, [], []⟩

/-- Whether both urls of the entry lead to an object. -/
def resolves (p : Planet T) (val : LinkValue) : Bool :=
  (p.root.objectAt val.source).isSome && (p.root.objectAt val.target).isSome

/-- The test of `remove_pending_link`: the two urls are the same. -/
def sameUrls (val entry : LinkValue) : Bool :=
  entry.source == val.source && entry.target == val.target

/-- `Planet::add_pending_link`. -/
def addPendingLink (p : Planet T) (val : LinkValue) : LinkAnswer × Planet T :=
  let params := { val with op := "?" }
  (.sss params, { p with pendingLinks := p.pendingLinks ++ [params] })

/-- `Planet::remove_pending_link`: the loop stops at the first entry it erases. -/
def removePendingLink (p : Planet T) (val : LinkValue) : LinkAnswer × Planet T :=
  match p.pendingLinks.find? (sameUrls val) with
  | some entry =>
      (.sss { entry with op := "||" },
        { p with pendingLinks := p.pendingLinks.eraseP (sameUrls val) })
  | none => (.nil, p)

/-- `slot->unlink(val[2])` or `slot->link(val[2])`. -/
def changeLink (o : Oscit T) (p : Planet T) (slot : ObjectId) (val : LinkValue) :
    LinkAnswer × Planet T :=
  let res := p.graph.changeLink o p.root slot
    (if val.op = "||" then .disconnect else .create) val.target
  (res.1, { p with graph := res.2 })

/-- `Planet::link` on a list. -/
def link (o : Oscit T) (p : Planet T) (val : LinkValue) :
    Except PlanetFault (LinkAnswer × Planet T) :=
  match p.root.objectAt val.source, p.root.objectAt val.target with
  | some source, some _ =>
      if p.graph.isSlot source then .ok (p.changeLink o source val)
      else
        match (p.root.child source "out").bind p.root.firstChild with
        -- a link of default slots: /met/out --> /counter/in
        | some object =>
            if p.graph.isSlot object then .ok (p.changeLink o object val)
            -- `slot->url()`, and `slot` is null here
            else .error .nullSlot
        | none =>
            .ok (.error .badRequest
              ("Object at '" ++ p.root.url source ++
                "' does not support links (not an Outlet, Inlet or Node)."), p)
  | _, _ =>
      if val.op = "=>" then .ok (p.addPendingLink val)
      else if val.op = "||" then .ok (p.removePendingLink val)
      else .ok (.sss val, p)

/-- The test of `create_pending_links`: the call succeeded or definitely failed. -/
def isSettled : LinkAnswer → Bool
  | .nil => false
  | .sss val => val.op == "=>"
  | .error _ _ => true

/-- `pending_links_.erase(it)`, noted in the history. -/
def erasePending (p : Planet T) (it : Nat) (obs : LinkObs) : Planet T :=
  { p with pendingLinks := p.pendingLinks.eraseIdx it, log := p.log ++ [obs] }

/-- The `while` loop of `create_pending_links` from iterator position `it` on, for at
most `fuel` entries; `list` is what it has pushed so far. -/
def createPendingLinksFrom (o : Oscit T) :
    Nat → Nat → List LinkAnswer → Planet T → Except PlanetFault (List LinkAnswer × Planet T)
  | 0, it, list, p => if it < p.pendingLinks.length then .error .unfinished else .ok (list, p)
  | fuel + 1, it, list, p =>
      match p.pendingLinks[it]? with
      | none => .ok (list, p)
      | some entry =>
          match p.link o entry with
          | .error fault => .error fault
          | .ok (res, p) =>
              if isSettled res then
                createPendingLinksFrom o fuel it (list ++ [res])
                  (p.erasePending it ⟨entry, res⟩)
              else createPendingLinksFrom o fuel (it + 1) list p

/-- `Planet::create_pending_links`. -/
def createPendingLinks (o : Oscit T) (p : Planet T) :
    Except PlanetFault (List LinkAnswer × Planet T) :=
  createPendingLinksFrom o p.pendingLinks.length 0 [] p

/-- One step. -/
def step (o : Oscit T) (p : Planet T) : PlanetAction T → Except PlanetFault (Planet T)
  | .link val => (p.link o val).map Prod.snd
  | .createPendingLinks => (p.createPendingLinks o).map Prod.snd
  | .objects root graph => .ok { p with root := root, graph := graph }

end Planet

end Rubyk
