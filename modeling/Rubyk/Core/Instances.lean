/-
  Core/Instances.lean --- nodes that a class makes: `NewMethod::cast_create` of
  `src/core/new_method.h`, with `make_methods`, `make_inlets` and `make_outlets` of
  `src/core/class.h` and `src/core/class.cpp`.

  WHAT IS MODELLED.  The whole function, on the list of an url and parameters that
  `create_instance` makes.  `memory` says at which address `new` puts each object of the
  instance.  A node's own `init`, `set` and `start` belong to its class; `some` is the
  text of an error.

  LEFT OUT.  The flag `is_ok_` and the url of the class, which nothing modelled reads.

  A new instance changes nothing for the objects there were (`Extends`), and its slots
  are found, by name and as first of their kind, where its class says (`Instance`).
-/
import Mathlib.Data.List.TakeWhile
import Rubyk.Core.NodeSlots
import Rubyk.Core.ObjectTree
import Rubyk.Core.RequestedLinks

set_option autoImplicit false

namespace Rubyk

/-- The objects that make up an instance. -/
inductive Part where
  | node
  | method (i : Nat)
  | folder (kind : SlotKind)
  | slot (kind : SlotKind) (i : Nat)
  /-- the method `list` of a slot -/
  | list (kind : SlotKind) (i : Nat)
  deriving DecidableEq, Repr

/-- `InletPrototype` and `OutletPrototype`. -/
structure SlotPrototype (T : Type) where
  name : String
  type : T

/-- All objects: the tree and the slots. -/
structure Objects (T : Type) where
  root : Root
  graph : SlotGraph T

/-- `Class`, with what its nodes do when they are made. -/
structure NodeClass (T : Type) where
  methods : List String
  inlets : List (SlotPrototype T)
  outlets : List (SlotPrototype T)
  init : ObjectId → Objects T → Option String × Objects T
  set : ObjectId → (params : String) → Objects T → Objects T
  start : ObjectId → Objects T → Option String × Objects T

/-- How a call of `new` ends. -/
inductive CreateAnswer where
  | url (url : String)
  | error (text : String)
  /-- `url.at(0)` of an empty url throws -/
  | thrown
  deriving DecidableEq, Repr

/-- `res.is_string()`. -/
def CreateAnswer.isUrl : CreateAnswer → Bool
  | .url _ => true
  | _ => false

namespace NodeClass

variable {T : Type}

/-- The prototypes of one kind. -/
def slots (klass : NodeClass T) : SlotKind → List (SlotPrototype T)
  | .inlet => klass.inlets
  | .outlet => klass.outlets

section Code

variable (tree : ObjectTree) (memory : Part → ObjectId)

/-- `parent->adopt(child)`. -/
def adopt (parent child : ObjectId) (name : String) (x : Objects T) : Objects T :=
  { x with root := tree.adopt x.root parent child name }

/-- `make_methods`. -/
def makeMethods (klass : NodeClass T) (x : Objects T) : Objects T :=
  klass.methods.zipIdx.foldl
    (fun x m => adopt tree (memory .node) (memory (.method m.2)) m.1 x) x

/-- `new Inlet(object, *it)` and `new Outlet(object, *it)`: a slot makes its method, and
then it registers. -/
def newSlot (kind : SlotKind) (p : SlotPrototype T × Nat) (x : Objects T) : Objects T :=
  let s := memory (.slot kind p.2)
  let x := adopt tree s (memory (.list kind p.2)) "list" x
  { x with graph := x.graph.newSlot kind s (memory .node) p.1.type }

/-- `make_inlets` and `make_outlets`. -/
def makeSlots (kind : SlotKind) (klass : NodeClass T) (x : Objects T) : Objects T :=
  let x := adopt tree (memory .node) (memory (.folder kind)) kind.folder x
  (klass.slots kind).zipIdx.foldl (fun x p =>
    adopt tree (memory (.folder kind)) (memory (.slot kind p.2)) p.1.name
      (newSlot tree memory kind p x)) x

/-- `new T()`, adopted and named; a node is called `n` before. -/
def makeNode (parent : ObjectId) (name : String) (x : Objects T) : Objects T :=
  let node := memory .node
  let x : Objects T := { x with graph := x.graph.newNode node }
  let x := adopt tree parent node "n" x
  { x with root := tree.setName x.root parent node name }

/-- The instance, before its own methods are called. -/
def build (klass : NodeClass T) (parent : ObjectId) (name : String) (x : Objects T) :
    Objects T :=
  let x := makeNode tree memory parent name x
  let x := klass.makeMethods tree memory x
  let x := makeSlots tree memory .inlet klass x
  makeSlots tree memory .outlet klass x

/-- `init`, `trigger` with the parameters, and `start`; the answer is the url. -/
def launch (klass : NodeClass T) (params : String) (x : Objects T) :
    CreateAnswer × Objects T :=
  let node := memory .node
  match klass.init node x with
  | (some text, x) => (.error text, x)
  | (none, x) =>
      match klass.start node (klass.set node params x) with
      | (some text, x) => (.error text, x)
      | (none, x) => (.url (x.root.url node), x)

/-- What is before the last `/` of an url, and what is behind. -/
def splitUrl (url : String) : String × String :=
  (String.ofList (url.toList.reverse.dropWhile (· ≠ '/')).tail.reverse,
    String.ofList (url.toList.reverse.takeWhile (· ≠ '/')).reverse)

/-- `cast_create`. -/
def castCreate (planet : ObjectId) (klass : NodeClass T) (url params : String)
    (x : Objects T) : CreateAnswer × Objects T :=
  match url.toList with
  | [] => (.thrown, x)
  | c :: _ =>
      if c = '/' then
        let (parentUrl, name) := splitUrl url
        match x.root.objectAt parentUrl with
        | none => (.error ("Invalid parent '" ++ parentUrl ++ "'."), x)
        | some parent => klass.launch memory params (klass.build tree memory parent name x)
      else klass.launch memory params (klass.build tree memory planet url x)

end Code

end NodeClass

/-! ## Targets of links -/

theorem Planet.sourceSlot_congr {T : Type} {r r' : Root} {g g' : SlotGraph T} {z : ObjectId}
    (hslot : g'.isSlot z = g.isSlot z)
    (hfirst : (r'.child z "out").bind r'.firstChild = (r.child z "out").bind r.firstChild)
    (hslots : ∀ w, (r.child z "out").bind r.firstChild = some w → g'.isSlot w = g.isSlot w) :
    sourceSlot r' g' z = sourceSlot r g z := by
  unfold sourceSlot
  rw [hslot, hfirst]
  split
  · rfl
  · cases h : (r.child z "out").bind r.firstChild with
    | none => rfl
    | some w => simp only [Option.filter_some, hslots w h]

theorem SlotGraph.castTarget_congr {T : Type} {r r' : Root} {g g' : SlotGraph T}
    {s z : ObjectId} (hslot : g'.isSlot z = g.isSlot z)
    (hfirst : (r'.child z "in").bind r'.firstChild = (r.child z "in").bind r.firstChild)
    (hs : ∀ kind, g'.isKind kind s = g.isKind kind s)
    (hz : ∀ kind, g'.isKind kind z = g.isKind kind z)
    (hkinds : ∀ w, (r.child z "in").bind r.firstChild = some w →
      ∀ kind, g'.isKind kind w = g.isKind kind w) :
    castTarget r' g' s z = castTarget r g s z := by
  have hlink (r : Root) (g : SlotGraph T) : linkTarget r g z =
      if g.isSlot z then some z else (r.child z "in").bind r.firstChild := by
    unfold linkTarget
    cases r.child z "in" <;> rfl
  unfold castTarget wantedKind
  rw [hlink, hlink, hslot, hs]
  cases g.isSlot z with
  | true => simp only [if_true, Option.filter_some, hz]
  | false =>
    rw [if_neg Bool.false_ne_true, if_neg Bool.false_ne_true, hfirst]
    cases h : (r.child z "in").bind r.firstChild with
    | none => rfl
    | some w => simp only [Option.filter_some, hkinds w h]

/-! ## The slots of an instance -/

namespace SlotGraph

variable {T : Type} {g g' : SlotGraph T} {n : NodeId} {kind : SlotKind}

/-- The constructors of several slots of a node. -/
def newSlots (g : SlotGraph T) (kind : SlotKind) (n : NodeId) (l : List (SlotId × T)) :
    SlotGraph T :=
  l.foldl (fun g s => g.newSlot kind s.1 n s.2) g

/-- What they leave behind: the slots, unlinked and in order. -/
structure SlotsMade (g g' : SlotGraph T) (kind : SlotKind) (n : NodeId)
    (l : List (SlotId × T)) : Prop where
  nodes : ∀ m, m ≠ n → g'.nodes m = g.nodes m
  alive : (g'.nodes n).isSome
  slotsIn : ∀ kind', g'.slotsIn n kind' =
    if kind' = kind then g.slotsIn n kind' ++ l.map Prod.fst else g.slotsIn n kind'
  other : ∀ t, t ∉ l.map Prod.fst → g'.slots t = g.slots t
  slots : ∀ i s type, l[i]? = some (s, type) →
    g'.slots s = some ⟨kind, n, type, ((g.slotsIn n kind).length + i : Nat), []⟩

theorem newSlots_spec (kind : SlotKind) (l : List (SlotId × T)) {g : SlotGraph T}
    (hn : (g.nodes n).isSome) (hnodup : (l.map Prod.fst).Nodup) :
    SlotsMade g (g.newSlots kind n l) kind n l := by
  induction l generalizing g with
  | nil => exact ⟨fun _ _ => rfl, hn, fun _ => by simp [newSlots], fun _ _ => rfl, by simp⟩
  | cons s l ih =>
    obtain ⟨node, hnode⟩ := Option.isSome_iff_exists.mp hn
    rw [List.map_cons, List.nodup_cons] at hnodup
    have hfirst : ((g.newSlot kind s.1 n s.2).nodes n).isSome := by
      simp [nodes_newSlot hnode]
    have hrest := ih hfirst hnodup.2
    have hstep : g.newSlots kind n (s :: l) = (g.newSlot kind s.1 n s.2).newSlots kind n l := rfl
    rw [hstep]
    refine ⟨fun m hm => ?_, hrest.alive, fun kind' => ?_, fun t ht => ?_, fun i t type hi => ?_⟩
    · rw [hrest.nodes m hm, nodes_newSlot hnode, if_neg hm]
    · rw [hrest.slotsIn, slotsIn_newSlot hn]
      by_cases hkind : kind' = kind <;> simp [hkind]
    · rw [List.map_cons, List.mem_cons, not_or] at ht
      rw [hrest.other t ht.2, slots_newSlot hnode, if_neg ht.1]
    · cases i with
      | zero =>
        obtain rfl : s = (t, type) := by simpa using hi
        rw [hrest.other t hnodup.1, slots_newSlot hnode, if_pos rfl]
        simp [SlotGraph.slotsIn, hnode]
      | succ i =>
        have hslot := hrest.slots i t type (by simpa using hi)
        rw [slotsIn_newSlot hn, if_pos ⟨rfl, rfl⟩, List.length_append,
          List.length_singleton] at hslot
        rw [hslot, Nat.add_assoc, Nat.add_comm 1 i]

theorem SlotsMade.connections {l : List (SlotId × T)} (h : SlotsMade g g' kind n l)
    (hdead : ∀ s ∈ l.map Prod.fst, g.slots s = none) (s : SlotId) :
    g'.connections s = g.connections s := by
  by_cases hs : s ∈ l.map Prod.fst
  · obtain ⟨i, hi⟩ := List.mem_iff_getElem?.mp hs
    rw [List.getElem?_map, Option.map_eq_some_iff] at hi
    obtain ⟨⟨s', type⟩, hi, rfl⟩ := hi
    simp [SlotGraph.connections, h.slots i _ type hi, hdead _ hs]
  · simp [SlotGraph.connections, h.other s hs]

end SlotGraph

namespace NodeClass

variable {T : Type}

/-! ## The tree of an instance -/

section Tree

variable {tree : ObjectTree} {memory : Part → ObjectId} {klass : NodeClass T}
  {kind : SlotKind} {planet parent : ObjectId} {name : String} {x : Objects T}

/-- Below which part another part is, and its name there. -/
structure Place where
  parent : Part
  name : String
  child : Part
  deriving DecidableEq, Repr

/-- The call of `adopt` for it. -/
def Place.adoption (memory : Part → ObjectId) (e : Place) : Adoption :=
  ⟨memory e.parent, e.name, memory e.child⟩

/-- The places of the methods. -/
def methodPlaces (klass : NodeClass T) : List Place :=
  klass.methods.zipIdx.map fun m => ⟨.node, m.1, .method m.2⟩

/-- The places of a slot and its method. -/
def slotPlace (kind : SlotKind) (p : SlotPrototype T × Nat) : List Place :=
  [⟨.slot kind p.2, "list", .list kind p.2⟩, ⟨.folder kind, p.1.name, .slot kind p.2⟩]

/-- The places of a folder and of what is in it. -/
def slotPlaces (kind : SlotKind) (klass : NodeClass T) : List Place :=
  ⟨.node, kind.folder, .folder kind⟩ :: (klass.slots kind).zipIdx.flatMap (slotPlace kind)

/-- All that comes below the node. -/
def places (klass : NodeClass T) : List Place :=
  methodPlaces klass ++ (slotPlaces .inlet klass ++ slotPlaces .outlet klass)

theorem root_makeMethods :
    (klass.makeMethods tree memory x).root =
      tree.adoptAll x.root ((methodPlaces klass).map (Place.adoption memory)) := by
  unfold makeMethods methodPlaces ObjectTree.adoptAll
  rw [List.map_map, List.foldl_map]
  generalize klass.methods.zipIdx = l
  induction l generalizing x with
  | nil => rfl
  | cons m l ih => exact ih

theorem graph_makeMethods : (klass.makeMethods tree memory x).graph = x.graph := by
  unfold makeMethods
  generalize klass.methods.zipIdx = l
  induction l generalizing x with
  | nil => rfl
  | cons m l ih => exact ih

theorem root_foldl_slots (l : List (SlotPrototype T × Nat)) (x : Objects T) :
    (l.foldl (fun x p => adopt tree (memory (.folder kind)) (memory (.slot kind p.2)) p.1.name
        (newSlot tree memory kind p x)) x).root =
      tree.adoptAll x.root ((l.flatMap (slotPlace kind)).map (Place.adoption memory)) := by
  induction l generalizing x with
  | nil => rfl
  | cons p l ih => exact ih _

theorem root_makeSlots :
    (makeSlots tree memory kind klass x).root =
      tree.adoptAll x.root ((slotPlaces kind klass).map (Place.adoption memory)) :=
  root_foldl_slots _ _

/-- The addresses and the types of the slots of one kind. -/
def slotTypes (memory : Part → ObjectId) (kind : SlotKind) (klass : NodeClass T) :
    List (SlotId × T) :=
  (klass.slots kind).zipIdx.map fun p => (memory (.slot kind p.2), p.1.type)

theorem graph_makeSlots :
    (makeSlots tree memory kind klass x).graph =
      x.graph.newSlots kind (memory .node) (slotTypes memory kind klass) := by
  have hloop (l : List (SlotPrototype T × Nat)) (x : Objects T) :
      (l.foldl (fun x p => adopt tree (memory (.folder kind)) (memory (.slot kind p.2)) p.1.name
          (newSlot tree memory kind p x)) x).graph =
        x.graph.newSlots kind (memory .node)
          (l.map fun p => (memory (.slot kind p.2), p.1.type)) := by
    induction l generalizing x with
    | nil => rfl
    | cons p l ih => exact ih _
  exact hloop _ _

/-! ## Places -/

/-- The declarations of a class that leaves all names as they are: methods, and slots of
one kind, have different names, none of a folder and none that reads as an url. -/
structure WellNamed (klass : NodeClass T) : Prop where
  methods : klass.methods.Nodup
  slots : ∀ kind, ((klass.slots kind).map SlotPrototype.name).Nodup
  noFolder : ∀ kind : SlotKind, kind.folder ∉ klass.methods
  noOut : ∀ kind, "out" ∉ (klass.slots kind).map SlotPrototype.name
  plain : ∀ kind, ∀ p ∈ klass.slots kind, p.name ≠ "" ∧ '/' ∉ p.name.toList

theorem mem_slotPlaces {e : Place} : e ∈ slotPlaces kind klass ↔
    e = ⟨.node, kind.folder, .folder kind⟩ ∨
      ∃ i p, (klass.slots kind)[i]? = some p ∧
        (e = ⟨.slot kind i, "list", .list kind i⟩ ∨
          e = ⟨.folder kind, p.name, .slot kind i⟩) := by
  unfold slotPlaces
  rw [List.mem_cons, List.mem_flatMap]
  refine or_congr Iff.rfl ⟨?_, ?_⟩
  · rintro ⟨⟨p, i⟩, hp, he⟩
    exact ⟨i, p, List.mk_mem_zipIdx_iff_getElem?.mp hp, by simpa [slotPlace] using he⟩
  · rintro ⟨i, p, hp, he⟩
    exact ⟨(p, i), List.mk_mem_zipIdx_iff_getElem?.mpr hp, by simpa [slotPlace] using he⟩

theorem mem_places {e : Place} : e ∈ places klass ↔
    (∃ i m, klass.methods[i]? = some m ∧ e = ⟨.node, m, .method i⟩) ∨
      ∃ kind, e ∈ slotPlaces kind klass := by
  unfold places
  rw [List.mem_append, List.mem_append]
  refine or_congr ⟨fun he => ?_, ?_⟩ ⟨?_, ?_⟩
  · obtain ⟨⟨m, i⟩, hm, rfl⟩ := List.mem_map.mp he
    exact ⟨i, m, List.mk_mem_zipIdx_iff_getElem?.mp hm, rfl⟩
  · rintro ⟨i, m, hm, rfl⟩
    exact List.mem_map.mpr ⟨(m, i), List.mk_mem_zipIdx_iff_getElem?.mpr hm, rfl⟩
  · rintro (he | he)
    exacts [⟨_, he⟩, ⟨_, he⟩]
  · rintro ⟨kind, he⟩
    cases kind
    exacts [Or.inl he, Or.inr he]

/-- The child of a place tells which place it is. -/
theorem nodup_slotChildren (kind : SlotKind) (klass : NodeClass T) :
    ((slotPlaces kind klass).map Place.child).Nodup := by
  have hindices : (klass.slots kind).zipIdx.Pairwise fun p q => p.2 < q.2 := by
    rw [← List.pairwise_map (f := Prod.snd) (R := (· < ·)), List.zipIdx_map_snd]
    exact List.pairwise_lt_range'
  unfold slotPlaces
  rw [List.map_cons, List.nodup_cons, List.map_flatMap, List.nodup_flatMap]
  refine ⟨by simp [slotPlace], by simp [slotPlace], hindices.imp fun {p q} hlt => ?_⟩
  have hne : p.2 ≠ q.2 := Nat.ne_of_lt hlt
  simp [Function.onFun, slotPlace, List.Disjoint, hne]

/-- A part of one kind is not one of the other kind. -/
theorem child_of_mem_slotPlaces {e : Place} (he : e ∈ slotPlaces kind klass) :
    e.child = .folder kind ∨ ∃ i, e.child = .list kind i ∨ e.child = .slot kind i := by
  rcases mem_slotPlaces.mp he with rfl | ⟨i, p, -, rfl | rfl⟩
  exacts [Or.inl rfl, Or.inr ⟨i, Or.inl rfl⟩, Or.inr ⟨i, Or.inr rfl⟩]

theorem nodup_children (klass : NodeClass T) : ((places klass).map Place.child).Nodup := by
  have hmethods : (methodPlaces klass).map Place.child =
      (List.range' 0 klass.methods.length).map Part.method := by
    rw [← List.zipIdx_map_snd 0 klass.methods, methodPlaces, List.map_map, List.map_map]
    rfl
  unfold places
  rw [List.map_append, List.map_append, List.nodup_append', List.nodup_append', hmethods]
  refine ⟨(List.nodup_range' 1).map fun i j h => Part.method.inj h,
    ⟨nodup_slotChildren _ klass, nodup_slotChildren _ klass, ?_⟩, ?_⟩
  · intro part hin hout
    obtain ⟨e, he, rfl⟩ := List.mem_map.mp hin
    obtain ⟨e', he', heq⟩ := List.mem_map.mp hout
    rcases child_of_mem_slotPlaces he with h | ⟨i, h | h⟩ <;>
      rcases child_of_mem_slotPlaces he' with h' | ⟨j, h' | h'⟩ <;>
      simp [h, h'] at heq
  · intro part hmethod hslot
    obtain ⟨i, -, rfl⟩ := List.mem_map.mp hmethod
    rw [← List.map_append] at hslot
    obtain ⟨e, he, heq⟩ := List.mem_map.mp hslot
    rcases List.mem_append.mp he with he | he <;>
      rcases child_of_mem_slotPlaces he with h | ⟨j, h | h⟩ <;>
      simp [h] at heq

/-- A name is used once below a parent. -/
theorem place_unique (hnames : WellNamed klass) {e e' : Place} (he : e ∈ places klass)
    (he' : e' ∈ places klass) (hparent : e.parent = e'.parent) (hname : e.name = e'.name) :
    e = e' := by
  have hmethod {i j : Nat} {m : String} (hi : klass.methods[i]? = some m)
      (hj : klass.methods[j]? = some m) : i = j :=
    (List.getElem?_inj (List.getElem?_eq_some_iff.mp hi).1 hnames.methods).mp (hi.trans hj.symm)
  have hfolder {i : Nat} {m : String} (hi : klass.methods[i]? = some m) (kind : SlotKind)
      (h : m = kind.folder) : False :=
    hnames.noFolder kind (h ▸ List.mem_of_getElem? hi)
  have hslot {kind : SlotKind} {i j : Nat} {p q : SlotPrototype T}
      (hi : (klass.slots kind)[i]? = some p) (hj : (klass.slots kind)[j]? = some q)
      (h : p.name = q.name) : i = j := by
    have hi' : ((klass.slots kind).map SlotPrototype.name)[i]? = some p.name := by simp [hi]
    have hj' : ((klass.slots kind).map SlotPrototype.name)[j]? = some p.name := by simp [hj, h]
    exact (List.getElem?_inj (List.getElem?_eq_some_iff.mp hi').1 (hnames.slots kind)).mp
      (hi'.trans hj'.symm)
  rcases mem_places.mp he with ⟨i, m, hi, rfl⟩ | ⟨kind, he⟩
  · rcases mem_places.mp he' with ⟨j, m', hj, rfl⟩ | ⟨kind', he'⟩
    · obtain rfl : m = m' := hname
      rw [hmethod hi hj]
    · rcases mem_slotPlaces.mp he' with rfl | ⟨j, q, hj, rfl | rfl⟩
      · exact (hfolder hi kind' hname).elim
      all_goals cases hparent
  · rcases mem_slotPlaces.mp he with rfl | ⟨i, p, hi, rfl | rfl⟩ <;>
      rcases mem_places.mp he' with ⟨j, m', hj, rfl⟩ | ⟨kind', he'⟩
    · exact (hfolder hj kind hname.symm).elim
    · rcases mem_slotPlaces.mp he' with rfl | ⟨j, q, hj, rfl | rfl⟩
      · cases kind <;> cases kind' <;> first | rfl | exact absurd hname (by decide)
      all_goals cases hparent
    · cases hparent
    · rcases mem_slotPlaces.mp he' with rfl | ⟨j, q, hj, rfl | rfl⟩ <;> cases hparent
      rfl
    · cases hparent
    · rcases mem_slotPlaces.mp he' with rfl | ⟨j, q, hj, rfl | rfl⟩ <;> cases hparent
      obtain rfl := hslot hi hj hname
      rw [Option.some.inj (hi.symm.trans hj)]

/-! ## What an instance leaves behind -/

/-- What `new` returns is not in use: the objects will be at different addresses, where
there is nothing. -/
structure Fresh (memory : Part → ObjectId) (x : Objects T) : Prop where
  injective : Function.Injective memory
  loose : ∀ part, ObjectTree.Loose x.root (memory part)
  childless : ∀ part n, x.root.child (memory part) n = none
  firstless : ∀ part, x.root.firstChild (memory part) = none
  noSlot : ∀ part, x.graph.slots (memory part) = none
  noNode : ∀ part, x.graph.nodes (memory part) = none
  found : ∀ part url, x.root.objectAt url ≠ some (memory part)

theorem Fresh.of_same {y : Objects T} (h : Fresh memory x) (hroot : y.root = x.root)
    (hkeys : SlotGraph.SameKeys x.graph y.graph) : Fresh memory y where
  injective := h.injective
  loose := by
    rw [hroot]
    exact h.loose
  childless := by
    rw [hroot]
    exact h.childless
  firstless := by
    rw [hroot]
    exact h.firstless
  noSlot part := by
    have hsome := hkeys.isSome (memory part)
    rw [h.noSlot] at hsome
    exact Option.not_isSome_iff_eq_none.mp (by simp [hsome])
  noNode := by
    rw [hkeys.nodes]
    exact h.noNode
  found := by
    rw [hroot]
    exact h.found

/-- The parent can take a child of this name: the name is free and not one of a folder, and
the parent is no folder itself. -/
structure Takes (memory : Part → ObjectId) (x : Objects T) (parent : ObjectId) (name : String) :
    Prop where
  free : x.root.child parent name = none
  ne : ∀ part, memory part ≠ parent
  named : name ≠ ""
  name : ∀ kind : SlotKind, name ≠ kind.folder
  parent : ∀ (kind : SlotKind) z, x.root.child z kind.folder ≠ some parent

/-- What was in the tree is there, and the node is below its parent. -/
structure Grown (memory : Part → ObjectId) (parent : ObjectId) (name : String) (r r' : Root) :
    Prop where
  child : ∀ y, (∀ part, y ≠ memory part) → ∀ n, r'.child y n =
    if y = parent ∧ n = name then some (memory .node) else r.child y n
  firstChild : ∀ y, (∀ part, y ≠ memory part) → y ≠ parent → r'.firstChild y = r.firstChild y

theorem makeNode_spec (hlaw : tree.Lawful planet) (hfinds : tree.Finds planet x.root)
    (hfresh : Fresh memory x) (htakes : Takes memory x parent name) :
    Grown memory parent name x.root (makeNode tree memory parent name x).root ∧
      (∀ c, c ≠ memory .node → ObjectTree.Loose x.root c →
        ObjectTree.Loose (makeNode tree memory parent name x).root c) ∧
      (∀ part n, (makeNode tree memory parent name x).root.child (memory part) n = none) ∧
      (∀ part, (makeNode tree memory parent name x).root.firstChild (memory part) = none) ∧
      tree.Finds planet (makeNode tree memory parent name x).root := by
  obtain ⟨used, -, hadopted, hfound⟩ := hlaw.adopt x.root parent (memory .node) "n" hfinds
    (hfresh.loose .node) (htakes.ne .node) ⟨name, htakes.free⟩
  have hone (n : String) : (tree.adopt x.root parent (memory .node) "n").child parent n =
      some (memory .node) ↔ n = used := by
    rw [hadopted.child]
    by_cases hn : n = used
    · simp [hn]
    · simp [hn, (hfresh.loose .node).child]
  have hname : name = used ∨
      (tree.adopt x.root parent (memory .node) "n").child parent name = none := by
    by_cases hn : name = used
    · exact Or.inl hn
    · rw [hadopted.child, if_neg fun h => hn h.2]
      exact Or.inr htakes.free
  obtain ⟨hrenamed, hfound⟩ := hlaw.setName _ parent (memory .node) used name hfound hone hname
  change ObjectTree.Renamed _ (makeNode tree memory parent name x).root _ _ at hrenamed
  change tree.Finds planet (makeNode tree memory parent name x).root at hfound
  generalize (makeNode tree memory parent name x).root = r' at hrenamed hfound
  have hchild (y : ObjectId) (n : String) : r'.child y n =
      if y = parent ∧ n = name then some (memory .node) else x.root.child y n := by
    rw [hrenamed.child, hadopted.child]
    by_cases hn : y = parent ∧ n = name
    · simp [hn]
    · rw [if_neg hn, if_neg hn]
      by_cases hu : y = parent ∧ n = used
      · rw [if_pos hu, hu.1, hu.2, hadopted.free]
      · rw [if_neg hu, if_neg hu]
  have hfirst (y : ObjectId) (hy : y ≠ parent) : r'.firstChild y = x.root.firstChild y := by
    rw [hrenamed.firstChild y hy, hadopted.firstChild, if_neg hy]
  refine ⟨⟨fun y _ n => hchild y n, fun y _ hy => hfirst y hy⟩, fun c hne hc => ⟨fun y n => ?_,
    fun y => ?_⟩, fun part n => ?_, fun part => ?_, hfound⟩
  · rw [hchild]
    split
    · exact fun h => hne (Option.some.inj h).symm
    · exact hc.child y n
  · have hloose := hadopted.loose hc hne
    by_cases hy : y = parent
    · subst hy
      intro h
      rcases hrenamed.first _ h with heq | heq | ⟨n, heq⟩
      exacts [hne heq, hloose.firstChild _ heq, hloose.child _ n heq]
    · rw [hfirst y hy]
      exact hc.firstChild y
  · rw [hchild, if_neg fun h => htakes.ne part h.1]
    exact hfresh.childless part n
  · rw [hfirst _ (htakes.ne part)]
    exact hfresh.firstless part

theorem Fresh.loose_of_ne {r : Root} (hfresh : Fresh memory x)
    (hloose : ∀ c, c ≠ memory .node → ObjectTree.Loose x.root c → ObjectTree.Loose r c)
    (part : Part) (hpart : part ≠ .node) : ObjectTree.Loose r (memory part) :=
  hloose _ (fun heq => hpart (hfresh.injective heq)) (hfresh.loose part)

/-- The places below a node are free while nothing is there. -/
theorem possible_places {r : Root} (hnames : WellNamed klass)
    (hinjective : Function.Injective memory)
    (hloose : ∀ part, part ≠ .node → ObjectTree.Loose r (memory part))
    (hchildless : ∀ part n, r.child (memory part) n = none) :
    ObjectTree.Possible r ((places klass).map (Place.adoption memory)) where
  names := by
    refine List.pairwise_map.mpr (List.Pairwise.imp_of_mem ?_ (nodup_children klass).of_map)
    rintro e e' he he' hne ⟨hparent, hname⟩
    exact hne (place_unique hnames he he' (hinjective hparent) hname)
  children := by
    have hmap : ((places klass).map (Place.adoption memory)).map Adoption.child =
        ((places klass).map Place.child).map memory := by
      rw [List.map_map, List.map_map]
      rfl
    rw [hmap]
    exact (nodup_children klass).map hinjective
  free a ha := by
    obtain ⟨e, -, rfl⟩ := List.mem_map.mp ha
    exact hchildless _ _
  loose a ha := by
    obtain ⟨e, he, rfl⟩ := List.mem_map.mp ha
    refine hloose e.child ?_
    rcases mem_places.mp he with ⟨i, m, -, rfl⟩ | ⟨kind, he⟩
    · exact Part.noConfusion
    · rcases mem_slotPlaces.mp he with rfl | ⟨i, p, -, rfl | rfl⟩ <;> exact Part.noConfusion
  ne a ha := by
    obtain ⟨e, he, rfl⟩ := List.mem_map.mp ha
    refine fun h => ?_
    have hne : e.child ≠ e.parent := by
      rcases mem_places.mp he with ⟨i, m, -, rfl⟩ | ⟨kind, he⟩
      · exact Part.noConfusion
      · rcases mem_slotPlaces.mp he with rfl | ⟨i, p, -, rfl | rfl⟩ <;> exact Part.noConfusion
    exact hne (hinjective h)

theorem root_build : (klass.build tree memory parent name x).root =
    tree.adoptAll (makeNode tree memory parent name x).root
      ((places klass).map (Place.adoption memory)) := by
  simp only [build, root_makeSlots, root_makeMethods, places, List.map_append,
    ObjectTree.adoptAll, List.foldl_append]

theorem graph_build : (klass.build tree memory parent name x).graph =
    ((x.graph.newNode (memory .node)).newSlots .inlet (memory .node)
      (slotTypes memory .inlet klass)).newSlots .outlet (memory .node)
        (slotTypes memory .outlet klass) := by
  simp only [build, graph_makeSlots, graph_makeMethods]
  rfl

/-- The first child of a folder is its first slot. -/
theorem find_slotPlace (hinjective : Function.Injective memory) (kind : SlotKind) :
    (((places klass).map (Place.adoption memory)).find? fun a =>
        a.parent = memory (.folder kind)).map Adoption.child =
      (klass.slots kind).head?.map fun _ => memory (.slot kind 0) := by
  have hpart : ((fun a : Adoption => decide (a.parent = memory (.folder kind))) ∘
      Place.adoption memory) = fun e : Place => decide (e.parent = .folder kind) := by
    funext e
    simp [Place.adoption, hinjective.eq_iff]
  have hmethods : (methodPlaces klass).find? (fun e => e.parent = .folder kind) = none := by
    simp [methodPlaces]
  have hother : ∀ kind', kind' ≠ kind →
      (slotPlaces kind' klass).find? (fun e => e.parent = .folder kind) = none := by
    intro kind' hkind
    simp [slotPlaces, slotPlace, hkind]
  have hown : ((slotPlaces kind klass).find? fun e => e.parent = .folder kind).map
      (fun e => memory e.child) = (klass.slots kind).head?.map fun _ => memory (.slot kind 0) := by
    unfold slotPlaces
    cases klass.slots kind <;> simp [slotPlace]
  rw [List.find?_map, hpart, places, List.find?_append, hmethods, List.find?_append,
    Option.none_or, Option.map_map]
  cases kind with
  | inlet =>
    rw [hother .outlet (by decide), Option.or_none]
    exact hown
  | outlet =>
    rw [hother .inlet (by decide), Option.none_or]
    exact hown

theorem mem_slotTypes {s : SlotId} : s ∈ (slotTypes memory kind klass).map Prod.fst ↔
    ∃ i p, (klass.slots kind)[i]? = some p ∧ s = memory (.slot kind i) := by
  simp only [slotTypes, List.map_map, List.mem_map, Function.comp]
  constructor
  · rintro ⟨⟨p, i⟩, hp, rfl⟩
    exact ⟨i, p, List.mk_mem_zipIdx_iff_getElem?.mp hp, rfl⟩
  · rintro ⟨i, p, hp, rfl⟩
    exact ⟨(p, i), List.mk_mem_zipIdx_iff_getElem?.mpr hp, rfl⟩

theorem nodup_slotTypes (hinjective : Function.Injective memory) :
    ((slotTypes memory kind klass).map Prod.fst).Nodup := by
  have hmap : (slotTypes memory kind klass).map Prod.fst =
      (List.range' 0 (klass.slots kind).length).map fun i => memory (.slot kind i) := by
    rw [← List.zipIdx_map_snd 0 (klass.slots kind), slotTypes, List.map_map, List.map_map]
    rfl
  rw [hmap]
  exact (List.nodup_range' 1).map fun i j h => (Part.slot.inj (hinjective h)).2

theorem getElem?_slotTypes {i : Nat} {p : SlotPrototype T} (h : (klass.slots kind)[i]? = some p) :
    (slotTypes memory kind klass)[i]? = some (memory (.slot kind i), p.type) := by
  simp [slotTypes, h]

/-- The other slots and nodes, and all links, are as they were. -/
structure GraphGrown (memory : Part → ObjectId) (g g' : SlotGraph T) : Prop where
  slots : ∀ s, (∀ part, s ≠ memory part) → g'.slots s = g.slots s
  nodes : ∀ n, n ≠ memory .node → g'.nodes n = g.nodes n
  connections : ∀ s, g'.connections s = g.connections s

/-- The slots of an instance. -/
structure HasSlots (memory : Part → ObjectId) (klass : NodeClass T) (g : SlotGraph T) :
    Prop where
  noSlot : ∀ part, (∀ kind i, part ≠ .slot kind i) → g.slots (memory part) = none
  slots : ∀ kind i p, (klass.slots kind)[i]? = some p →
    g.slots (memory (.slot kind i)) = some ⟨kind, memory .node, p.type, i, []⟩
  registered : ∀ kind, g.slotsIn (memory .node) kind =
    (slotTypes memory kind klass).map Prod.fst

theorem build_graph (tree : ObjectTree) (klass : NodeClass T) (parent : ObjectId) (name : String)
    (hfresh : Fresh memory x) :
    GraphGrown memory x.graph (klass.build tree memory parent name x).graph ∧
      HasSlots memory klass (klass.build tree memory parent name x).graph := by
  rw [graph_build]
  have hempty (kind : SlotKind) :
      (x.graph.newNode (memory .node)).slotsIn (memory .node) kind = [] := by
    cases kind <;> simp [SlotGraph.slotsIn, SlotGraph.newNode, Node.slotsOf]
  have hin := SlotGraph.newSlots_spec (n := memory .node) .inlet
    (slotTypes memory .inlet klass) (g := x.graph.newNode (memory .node))
    (by simp [SlotGraph.newNode]) (nodup_slotTypes hfresh.injective)
  have hout := SlotGraph.newSlots_spec .outlet (slotTypes memory .outlet klass)
    hin.alive (nodup_slotTypes hfresh.injective)
  generalize (x.graph.newNode (memory .node)).newSlots .inlet (memory .node)
    (slotTypes memory .inlet klass) = g₁ at hin hout ⊢
  generalize g₁.newSlots .outlet (memory .node) (slotTypes memory .outlet klass) = g₂ at hout ⊢
  have hother (s : SlotId) (hs : ∀ kind i, s ≠ memory (.slot kind i)) :
      g₂.slots s = x.graph.slots s := by
    have hnot (kind : SlotKind) : s ∉ (slotTypes memory kind klass).map Prod.fst := by
      intro hmem
      obtain ⟨i, p, -, rfl⟩ := mem_slotTypes.mp hmem
      exact hs kind i rfl
    rw [hout.other s (hnot .outlet), hin.other s (hnot .inlet)]
    rfl
  have hdead : ∀ s ∈ (slotTypes memory .outlet klass).map Prod.fst, g₁.slots s = none := by
    intro s hs
    obtain ⟨i, p, -, rfl⟩ := mem_slotTypes.mp hs
    rw [hin.other]
    · exact hfresh.noSlot _
    · intro hmem
      obtain ⟨j, q, -, heq⟩ := mem_slotTypes.mp hmem
      cases hfresh.injective heq
  refine ⟨⟨fun s hs => hother s fun kind i => hs _, fun n hn => ?_, fun s => ?_⟩,
    ⟨fun part hpart => ?_, fun kind i p hp => ?_, fun kind => ?_⟩⟩
  · rw [hout.nodes n hn, hin.nodes n hn]
    simp [SlotGraph.newNode, hn]
  · rw [hout.connections hdead, hin.connections fun s hs => ?_]
    · rfl
    · obtain ⟨i, p, -, rfl⟩ := mem_slotTypes.mp hs
      exact hfresh.noSlot _
  · rw [hother _ fun kind i h => hpart kind i (hfresh.injective h)]
    exact hfresh.noSlot part
  · cases kind with
    | inlet =>
      rw [hout.other, hin.slots i _ _ (getElem?_slotTypes hp), hempty]
      · simp
      · intro hmem
        obtain ⟨j, q, -, heq⟩ := mem_slotTypes.mp hmem
        cases hfresh.injective heq
    | outlet =>
      rw [hout.slots i _ _ (getElem?_slotTypes hp), hin.slotsIn, if_neg (by decide), hempty]
      simp
  · cases kind with
    | inlet =>
      rw [hout.slotsIn, if_neg (by decide), hin.slotsIn, if_pos rfl, hempty, List.nil_append]
    | outlet =>
      rw [hout.slotsIn, if_pos rfl, hin.slotsIn, if_neg (by decide), hempty, List.nil_append]

/-- The objects of an instance are found where its class says. -/
structure Instance (memory : Part → ObjectId) (klass : NodeClass T) (parent : ObjectId)
    (name : String) (r : Root) : Prop where
  node : r.child parent name = some (memory .node)
  folder : ∀ kind : SlotKind, r.child (memory .node) kind.folder = some (memory (.folder kind))
  slot : ∀ kind i p, (klass.slots kind)[i]? = some p →
    r.child (memory (.folder kind)) p.name = some (memory (.slot kind i))
  first : ∀ kind, r.firstChild (memory (.folder kind)) =
    (klass.slots kind).head?.map fun _ => memory (.slot kind 0)
  only : ∀ kind n z, r.child (memory (.folder kind)) n = some z →
    n ∈ (klass.slots kind).map SlotPrototype.name

theorem build_tree (hlaw : tree.Lawful planet) (hfinds : tree.Finds planet x.root)
    (hnames : WellNamed klass) (hfresh : Fresh memory x) (htakes : Takes memory x parent name) :
    Grown memory parent name x.root (klass.build tree memory parent name x).root ∧
      Instance memory klass parent name (klass.build tree memory parent name x).root ∧
      tree.Finds planet (klass.build tree memory parent name x).root ∧
      ∀ part z, (klass.build tree memory parent name x).root.child (memory part) "out" = some z →
        z = memory (.folder .outlet) := by
  obtain ⟨hgrown, hloose, hchildless, hfirstless, hfound⟩ :=
    makeNode_spec hlaw hfinds hfresh htakes
  obtain ⟨hall, hfound⟩ := ObjectTree.adoptAll_spec hlaw _ hfound
    (possible_places hnames hfresh.injective (hfresh.loose_of_ne hloose) hchildless)
  rw [← root_build] at hall hfound
  have hplace {e : Place} (he : e ∈ places klass) :
      (klass.build tree memory parent name x).root.child (memory e.parent) e.name =
        some (memory e.child) := hall.mem _ (List.mem_map_of_mem he)
  have hslotPlace {kind : SlotKind} {e : Place} (he : e ∈ slotPlaces kind klass) :=
    hplace (mem_places.mpr (Or.inr ⟨kind, he⟩))
  have hnode : (makeNode tree memory parent name x).root.child parent name =
      some (memory .node) := by
    rw [hgrown.child parent (fun part => (htakes.ne part).symm) name, if_pos ⟨rfl, rfl⟩]
  have hkept (y : ObjectId) (hy : ∀ part, y ≠ memory part) (n : String) :
      (klass.build tree memory parent name x).root.child y n =
        (makeNode tree memory parent name x).root.child y n := by
    refine hall.other y n fun a ha heq => ?_
    obtain ⟨e, -, rfl⟩ := List.mem_map.mp ha
    exact hy e.parent heq.1.symm
  refine ⟨⟨fun y hy n => (hkept y hy n).trans (hgrown.child y hy n), fun y hy hne => ?_⟩,
    ⟨(hkept parent (fun part => (htakes.ne part).symm) name).trans hnode,
      fun kind => hslotPlace (mem_slotPlaces.mpr (Or.inl rfl)),
      fun kind i p hp => hslotPlace (mem_slotPlaces.mpr (Or.inr ⟨i, p, hp, Or.inr rfl⟩)),
      fun kind => ?_, fun kind n z hz => ?_⟩, hfound, fun part z hz => ?_⟩
  · have hnone : (((places klass).map (Place.adoption memory)).find? fun a => a.parent = y) =
        none := by
      refine List.find?_eq_none.mpr fun a ha => ?_
      obtain ⟨e, -, rfl⟩ := List.mem_map.mp ha
      exact fun h => hy e.parent (of_decide_eq_true h).symm
    rw [hall.firstChild, hgrown.firstChild y hy hne, hnone, Option.map_none, Option.or_none]
  · rw [hall.firstChild, hfirstless, Option.none_or, find_slotPlace hfresh.injective]
  · by_contra hn
    rw [hall.other _ _ fun a ha heq => ?_, hchildless] at hz
    · cases hz
    · obtain ⟨e, he, rfl⟩ := List.mem_map.mp ha
      have hfolder : e.parent = .folder kind := hfresh.injective heq.1
      rcases mem_places.mp he with ⟨i, m, -, rfl⟩ | ⟨kind', he⟩
      · cases hfolder
      · rcases mem_slotPlaces.mp he with rfl | ⟨i, p, hp, rfl | rfl⟩ <;> cases hfolder
        exact hn (List.mem_map.mpr ⟨p, List.mem_of_getElem? hp, heq.2⟩)
  · -- only the node has a child called `out`
    by_cases hout : ∃ e ∈ places klass, e.parent = part ∧ e.name = "out"
    · obtain ⟨e, he, rfl, hname⟩ := hout
      have hz' := hplace he
      rw [hname, hz] at hz'
      obtain rfl := Option.some.inj hz'
      rcases mem_places.mp he with ⟨i, m, hm, rfl⟩ | ⟨kind, he⟩
      · obtain rfl : m = "out" := hname
        exact (hnames.noFolder .outlet (List.mem_of_getElem? hm)).elim
      · rcases mem_slotPlaces.mp he with rfl | ⟨i, p, hp, rfl | rfl⟩
        · cases kind
          · exact absurd hname (by decide)
          · rfl
        · exact absurd hname (by decide : "list" ≠ "out")
        · have hname : p.name = "out" := hname
          exact (hnames.noOut kind (hname ▸ List.mem_map_of_mem (List.mem_of_getElem? hp))).elim
    · rw [hall.other _ _ fun a ha heq => ?_, hchildless] at hz
      · cases hz
      · obtain ⟨e, he, rfl⟩ := List.mem_map.mp ha
        exact hout ⟨e, he, hfresh.injective heq.1, heq.2⟩

/-- What was nobody's child and is none of the new objects, still is. -/
theorem loose_build (hlaw : tree.Lawful planet) (hfinds : tree.Finds planet x.root)
    (hnames : WellNamed klass) (hfresh : Fresh memory x) (htakes : Takes memory x parent name)
    {c : ObjectId} (hc : ObjectTree.Loose x.root c) (hne : ∀ part, c ≠ memory part) :
    ObjectTree.Loose (klass.build tree memory parent name x).root c := by
  obtain ⟨-, hloose, hchildless, -, hfound⟩ := makeNode_spec hlaw hfinds hfresh htakes
  obtain ⟨hall, -⟩ := ObjectTree.adoptAll_spec hlaw _ hfound
    (possible_places hnames hfresh.injective (hfresh.loose_of_ne hloose) hchildless)
  rw [← root_build] at hall
  refine hall.loose (hloose c (hne .node) hc) fun a ha => ?_
  obtain ⟨e, -, rfl⟩ := List.mem_map.mp ha
  exact (hne e.child).symm

/-- Other memory that is not in use is not used by an instance. -/
theorem Fresh.build {memory' : Part → ObjectId} (hlaw : tree.Lawful planet)
    (hfinds : tree.Finds planet x.root) (hnames : WellNamed klass) (hfresh : Fresh memory x)
    (htakes : Takes memory x parent name) (hother : Fresh memory' x)
    (hapart : ∀ part part', memory' part ≠ memory part') (hparent : ∀ part, memory' part ≠ parent) :
    Fresh memory' (klass.build tree memory parent name x) := by
  obtain ⟨hgrown, -, hfound, -⟩ := build_tree hlaw hfinds hnames hfresh htakes
  obtain ⟨hgraph, -⟩ := build_graph tree klass parent name hfresh
  have hloose (part : Part) := loose_build hlaw hfinds hnames hfresh htakes (hother.loose part)
    (hapart part)
  refine ⟨hother.injective, hloose, fun part n => ?_, fun part => ?_, fun part => ?_,
    fun part => ?_, fun part url hurl => ?_⟩
  · rw [hgrown.child _ (hapart part), if_neg fun heq => hparent part heq.1]
    exact hother.childless part n
  · rw [hgrown.firstChild _ (hapart part) (hparent part)]
    exact hother.firstless part
  · rw [hgraph.slots _ (hapart part)]
    exact hother.noSlot part
  · rw [hgraph.nodes _ (hapart part .node)]
    exact hother.noNode part
  · rw [hfound] at hurl
    obtain ⟨names, -, hfollow⟩ := Option.bind_eq_some_iff.mp hurl
    have hplanet : x.root.objectAt "" = some planet := by
      rw [hfinds, hlaw.path_planet]
      rfl
    exact hother.found part "" (hplanet.trans
      (congrArg some ((hloose part).eq_of_follow hfollow)))

/-! ## `cast_create` -/

theorem splitUrl_eq (url : String) (h : '/' ∈ url.toList) :
    url = (splitUrl url).1 ++ "/" ++ (splitUrl url).2 ∧ '/' ∉ (splitUrl url).2.toList := by
  have hparts := List.takeWhile_append_dropWhile (p := (· ≠ '/')) (l := url.toList.reverse)
  have hslash : '/' ∉ url.toList.reverse.takeWhile (· ≠ '/') := fun hmem =>
    absurd (List.mem_takeWhile_imp hmem) (by simp)
  cases hrest : url.toList.reverse.dropWhile (· ≠ '/') with
  | nil =>
    rw [hrest, List.append_nil] at hparts
    rw [hparts] at hslash
    exact absurd (List.mem_reverse.mpr h) hslash
  | cons c rest =>
    have hc : c = '/' := by
      have hhead := List.head?_dropWhile_not (fun c => decide (c ≠ '/')) url.toList.reverse
      rw [hrest] at hhead
      simpa using hhead
    subst hc
    refine ⟨?_, by simpa [splitUrl] using hslash⟩
    rw [hrest] at hparts
    apply String.toList_inj.mp
    simp only [splitUrl, hrest, String.toList_append, String.toList_ofList, List.tail_cons]
    rw [← List.reverse_reverse url.toList]
    conv_lhs => rw [← hparts]
    simp

/-- What a class does to a node that it has made leaves the tree and the links alone. -/
structure Still (x y : Objects T) : Prop where
  root : y.root = x.root
  keys : SlotGraph.SameKeys x.graph y.graph
  connections : ∀ s, y.graph.connections s = x.graph.connections s

theorem Still.trans {x y z : Objects T} (h : Still x y) (h' : Still y z) : Still x z :=
  ⟨h'.root.trans h.root, h.keys.trans h'.keys,
    fun s => (h'.connections s).trans (h.connections s)⟩

/-- The nodes of the class start, and touch no slots of anyone while they do. -/
structure Starts (klass : NodeClass T) : Prop where
  init : ∀ n x, ∃ y, klass.init n x = (none, y) ∧ Still x y
  set : ∀ n params x, Still x (klass.set n params x)
  start : ∀ n x, ∃ y, klass.start n x = (none, y) ∧ Still x y

theorem launch_spec (memory : Part → ObjectId) (hstarts : Starts klass) (params : String)
    (x : Objects T) :
    ∃ y, klass.launch memory params x = (.url (y.root.url (memory .node)), y) ∧ Still x y := by
  obtain ⟨y, hinit, hy⟩ := hstarts.init (memory .node) x
  obtain ⟨z, hstart, hz⟩ := hstarts.start (memory .node) (klass.set (memory .node) params y)
  refine ⟨z, ?_, hy.trans ((hstarts.set _ params y).trans hz)⟩
  simp [launch, hinit, hstart]

/-- An url below a parent. -/
theorem castCreate_eq {url : String} {rest : List Char} (params : String)
    (hurl : url.toList = '/' :: rest) (hparent : x.root.objectAt (splitUrl url).1 = some parent) :
    klass.castCreate tree memory planet url params x =
      klass.launch memory params (klass.build tree memory parent (splitUrl url).2 x) := by
  simp [castCreate, hurl, hparent]

/-! ## What it changes for the others -/

/-- Names that led somewhere lead there. -/
theorem Grown.follow {r r' : Root} (hgrown : Grown memory parent name r r')
    (hfree : r.child parent name = none) (hchildless : ∀ part n, r.child (memory part) n = none)
    {names : List String} {y z : ObjectId} (h : r.follow y names = some z) :
    r'.follow y names = some z := by
  induction names generalizing y with
  | nil => exact h
  | cons n names ih =>
    obtain ⟨w, hw, hz⟩ := Option.bind_eq_some_iff.mp h
    have hy : ∀ part, y ≠ memory part := by
      rintro part rfl
      rw [hchildless] at hw
      cases hw
    have hnot : ¬ (y = parent ∧ n = name) := by
      rintro ⟨rfl, rfl⟩
      rw [hfree] at hw
      cases hw
    rw [Root.follow, hgrown.child y hy, if_neg hnot, hw]
    exact ih hz

/-- The first slot that an object has in a folder is the same. -/
theorem Grown.firstSlot {r' : Root} (hfresh : Fresh memory x)
    (htakes : Takes memory x parent name) (hgrown : Grown memory parent name x.root r')
    {z : ObjectId} (hz : ∀ part, z ≠ memory part) (kind : SlotKind) :
    (r'.child z kind.folder).bind r'.firstChild =
      (x.root.child z kind.folder).bind x.root.firstChild := by
  rw [hgrown.child z hz, if_neg fun h => htakes.name kind h.2.symm]
  cases hy : x.root.child z kind.folder with
  | none => rfl
  | some y =>
    refine hgrown.firstChild y (fun part h => ?_) fun h => ?_
    · exact (hfresh.loose part).child z _ (h ▸ hy)
    · exact htakes.parent kind z (h ▸ hy)

/-- What is in a folder was there before, so it is no part. -/
theorem Fresh.ne_of_firstSlot (hfresh : Fresh memory x) (kind : SlotKind) {z w : ObjectId}
    (h : (x.root.child z kind.folder).bind x.root.firstChild = some w) (part : Part) :
    w ≠ memory part := by
  obtain ⟨y, -, hw⟩ := Option.bind_eq_some_iff.mp h
  rintro rfl
  exact (hfresh.loose part).firstChild y hw

/-- A planet on which an instance was made has grown. -/
theorem extends_of_grown {p q : Planet T} {g : SlotGraph T} (hfinds : tree.Finds planet p.root)
    (hfinds' : tree.Finds planet q.root) (hfresh : Fresh memory ⟨p.root, p.graph⟩)
    (htakes : Takes memory ⟨p.root, p.graph⟩ parent name)
    (hgrown : Grown memory parent name p.root q.root) (hgraph : GraphGrown memory p.graph g)
    (hkeys : SlotGraph.SameKeys g q.graph) (hkeeps : SlotGraph.KeepsLinks g q.graph) :
    Planet.Extends p q := by
  have hkey {s : SlotId} (hs : ∀ part, s ≠ memory part) :
      (q.graph.slots s).map Slot.key = (p.graph.slots s).map Slot.key := by
    rw [hkeys.slots, hgraph.slots s hs]
  have hisKind {s : SlotId} (hs : ∀ part, s ≠ memory part) (kind : SlotKind) :
      q.graph.isKind kind s = p.graph.isKind kind s := by
    rw [SlotGraph.SameKeys.isKind hkeys]
    simp [SlotGraph.isKind, hgraph.slots s hs]
  have hisSlot {s : SlotId} (hs : ∀ part, s ≠ memory part) :
      q.graph.isSlot s = p.graph.isSlot s := by
    simpa [SlotGraph.isSlot] using congrArg Option.isSome (hkey hs)
  have hfound {url : String} {z : ObjectId} (h : p.root.objectAt url = some z) :
      q.root.objectAt url = some z ∧ ∀ part, z ≠ memory part := by
    refine ⟨?_, fun part heq => hfresh.found part url (heq ▸ h)⟩
    rw [hfinds url] at h
    obtain ⟨names, hnames, hz⟩ := Option.bind_eq_some_iff.mp h
    rw [hfinds' url, hnames]
    exact hgrown.follow htakes.free hfresh.childless hz
  refine ⟨fun val hres => ?_, fun s slot hslot => ?_, fun s t ht => hkeeps s t ?_⟩
  · obtain ⟨source, hsource⟩ := Option.isSome_iff_exists.mp (Bool.and_eq_true_iff.mp hres).1
    obtain ⟨target, htarget⟩ := Option.isSome_iff_exists.mp (Bool.and_eq_true_iff.mp hres).2
    obtain ⟨hsource', hs⟩ := hfound hsource
    obtain ⟨htarget', ht⟩ := hfound htarget
    refine ⟨by simp [Planet.resolves, hsource', htarget'], ?_⟩
    have hfrom : Planet.sourceSlot q.root q.graph source =
        Planet.sourceSlot p.root p.graph source :=
      Planet.sourceSlot_congr (hisSlot hs) (hgrown.firstSlot hfresh htakes hs .outlet)
        fun w hw => hisSlot (hfresh.ne_of_firstSlot .outlet hw)
    have hto {s : ObjectId} (h : Planet.sourceSlot p.root p.graph source = some s) :
        SlotGraph.castTarget q.root q.graph s target =
          SlotGraph.castTarget p.root p.graph s target := by
      have halive : p.graph.isSlot s = true := Planet.isSlot_of_sourceSlot h
      refine SlotGraph.castTarget_congr (hisSlot ht) (hgrown.firstSlot hfresh htakes ht .inlet)
        (hisKind ?_) (hisKind ht) fun w hw => hisKind (hfresh.ne_of_firstSlot .inlet hw)
      rintro part rfl
      have hdead : p.graph.slots (memory part) = none := hfresh.noSlot part
      simp [SlotGraph.isSlot, hdead] at halive
    simp only [Planet.ends, hsource, hsource', htarget, htarget', Option.bind_some, hfrom]
    cases h : Planet.sourceSlot p.root p.graph source with
    | none => rfl
    | some s => simp only [Option.bind_some, hto h]
  · have hs : ∀ part, s ≠ memory part := by
      rintro part rfl
      rw [hfresh.noSlot part] at hslot
      cases hslot
    rw [hkey hs, hslot, Option.map_some]
  · rwa [hgraph.connections]

/-- What is first in a child `out` of an object is a slot. -/
def OutSlots (x : Objects T) : Prop :=
  ∀ z y w, x.root.child z "out" = some y → x.root.firstChild y = some w →
    x.graph.isSlot w = true

theorem OutSlots.noNull {p : Planet T} (h : OutSlots ⟨p.root, p.graph⟩) (val : LinkValue) :
    p.reachesNullSlot val = false := by
  unfold Planet.reachesNullSlot
  split
  · split
    · rename_i object hobject
      obtain ⟨y, hy, hw⟩ := Option.bind_eq_some_iff.mp hobject
      have hslot : p.graph.isSlot object = true := h _ y object hy hw
      simp [hslot]
    · simp
  · rfl

theorem OutSlots.build (hout : OutSlots x) (hlaw : tree.Lawful planet)
    (hfinds : tree.Finds planet x.root) (hnames : WellNamed klass) (hfresh : Fresh memory x)
    (htakes : Takes memory x parent name) :
    OutSlots (klass.build tree memory parent name x) := by
  obtain ⟨hgrown, hinstance, -, hsingle⟩ := build_tree hlaw hfinds hnames hfresh htakes
  obtain ⟨hgraph, hslots⟩ := build_graph tree klass parent name hfresh
  intro z y w hy hw
  by_cases hz : ∃ part, z = memory part
  · obtain ⟨part, rfl⟩ := hz
    obtain rfl := hsingle part y hy
    rw [hinstance.first] at hw
    cases hprototypes : klass.slots .outlet with
    | nil => simp [hprototypes] at hw
    | cons p ps =>
      obtain rfl : memory (.slot .outlet 0) = w := by simpa [hprototypes] using hw
      simp [SlotGraph.isSlot, hslots.slots .outlet 0 p (by simp [hprototypes])]
  · have hold := hgrown.firstSlot hfresh htakes (fun part h => hz ⟨part, h⟩) .outlet
    have hwas : (x.root.child z "out").bind x.root.firstChild = some w := by
      rw [show ("out" : String) = SlotKind.outlet.folder from rfl, ← hold]
      exact Option.bind_eq_some_iff.mpr ⟨y, hy, hw⟩
    obtain ⟨y', hy', hw'⟩ := Option.bind_eq_some_iff.mp hwas
    have hslot := hout z y' w hy' hw'
    rw [SlotGraph.isSlot, hgraph.slots w (hfresh.ne_of_firstSlot .outlet hwas)]
    exact hslot

theorem OutSlots.still {y : Objects T} (hout : OutSlots x) (hstill : Still x y) : OutSlots y := by
  intro z z' w hz hw
  rw [hstill.root] at hz hw
  simpa [SlotGraph.isSlot, hstill.keys.isSome] using hout z z' w hz hw

end Tree

end NodeClass

end Rubyk
