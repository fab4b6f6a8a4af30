/-
  Core/LuaSlots.lean --- the slots that a script declares: `LuaScript::lua_inlet` and
  `LuaScript::lua_build_outlet` of `src/core/lua_script.cpp`.

  A script says `inlet(name, type)` and `Outlet(name, type)` while it is run, and it is run
  again whenever it has changed.  A slot is made when its name comes up for the first time.
  From then on it is the same slot, at the same place, whatever else is declared, however
  often the script is run and whoever links it: so what is linked stays linked, and an
  outlet that a script has kept is the one that `send_` sends through
  (`slots_as_declared`).

  FROM OSCIT.  `typeOf` is the type that a list stands for.  The size of a value that is no
  list is below 2.  Reading an element that a list does not have is a fault.

  OTHERS.  Between two declarations anything may happen that leaves the folders and the
  slots of the node where they are (`Undisturbed`).  Links do (`undisturbed_of_still`), and
  so do nodes that are made elsewhere (`undisturbed_build`).
-/
import Rubyk.Core.Instances
import Rubyk.Core.LuaLists
import Rubyk.Lib.Runs

set_option autoImplicit false

namespace Rubyk

namespace LuaScript

variable {R T : Type}

/-- What the two functions ask of a `Value`. -/
structure SlotTypes (R T : Type) where
  typeOf : List (HostValue R) → T
  lazyJson : HostValue R → String

/-- The slot that a call asks for, if it gets past the test at its beginning. -/
def declaration (o : SlotTypes R T) : HostValue R → Except LuaFault (Option (SlotPrototype T))
  | .list [] => .error .badIndex
  | .list [.string _] => .error .badIndex
  | .list (.string name :: .list (a :: b :: l) :: _) =>
      .ok (some ⟨cString name, o.typeOf (a :: b :: l)⟩)
  | _ => .ok none

/-- What `build_outlet_` hands to the script. -/
inductive OutletAnswer where
  | message (text : String)
  | outlet (s : ObjectId)
  | nothing
  deriving DecidableEq, Repr

section Code

variable (tree : ObjectTree) (o : SlotTypes R T) (node : ObjectId)

/-- `folder->adopt(new Outlet(this, name, type))`, or a `LuaInlet`; `slot` and `list` are
where the slot and its method will be. -/
def adoptSlot (kind : SlotKind) (folder slot list : ObjectId) (p : SlotPrototype T)
    (x : Objects T) : Objects T :=
  let x := NodeClass.adopt tree slot list "list" x
  let x := { x with graph := x.graph.newSlot kind slot node p.type }
  NodeClass.adopt tree folder slot p.name x

/-- `lua_inlet`. -/
def luaInlet (slot list : ObjectId) (val : HostValue R) (x : Objects T) :
    Except LuaFault (Objects T) := do
  match ← declaration o val with
  | none => .ok x
  | some p =>
      match x.root.child node SlotKind.inlet.folder with
      | none => .ok x
      | some folder =>
          match x.root.child folder p.name with
          -- another type, other units: nothing is done yet
          | some _ => .ok x
          | none => .ok (adoptSlot tree node .inlet folder slot list p x)

/-- `lua_build_outlet`. -/
def luaBuildOutlet (slot list : ObjectId) (val : HostValue R) (x : Objects T) :
    Except LuaFault (OutletAnswer × Objects T) := do
  match ← declaration o val with
  | none => .ok (.message ("Cannot build outlet from (" ++ o.lazyJson val ++ ")."), x)
  | some p =>
      match x.root.child node SlotKind.outlet.folder with
      | none => .ok (.nothing, x)
      | some folder =>
          match x.root.child folder p.name with
          | some outlet => .ok (.outlet outlet, x)
          | none => .ok (.outlet slot, adoptSlot tree node .outlet folder slot list p x)

end Code

/-! ## Runs -/

/-- What happens to the slots of a script. -/
inductive SlotCall (R T : Type) where
  | inlet (slot list : ObjectId) (val : HostValue R)
  | buildOutlet (slot list : ObjectId) (val : HostValue R)
  /-- the objects are these, after something else -/
  | others (x : Objects T)

/-- The objects, and the outlets that the script was given, with the names it gave. -/
structure ScriptSlots (T : Type) where
  objects : Objects T
  given : List (String × ObjectId)

/-- The slot of this kind that a call asks for. -/
def SlotCall.declares (o : SlotTypes R T) (kind : SlotKind) :
    SlotCall R T → Option (SlotPrototype T)
  | .inlet _ _ val =>
      if kind = .inlet then (declaration o val).toOption.bind id else none
  | .buildOutlet _ _ val =>
      if kind = .outlet then (declaration o val).toOption.bind id else none
  | .others _ => none

/-- One call. -/
def performSlots (tree : ObjectTree) (o : SlotTypes R T) (node : ObjectId)
    (s : ScriptSlots T) (call : SlotCall R T) : Except LuaFault (ScriptSlots T) :=
  match call with
  | .inlet slot list val => do
      let x ← luaInlet tree o node slot list val s.objects
      .ok { s with objects := x }
  | .buildOutlet slot list val => do
      let (answer, x) ← luaBuildOutlet tree o node slot list val s.objects
      match answer, call.declares o .outlet with
      | .outlet outlet, some p => .ok ⟨x, s.given ++ [(p.name, outlet)]⟩
      | _, _ => .ok { s with objects := x }
  | .others x => .ok { s with objects := x }

/-- There is nothing at these two addresses. -/
structure Unused (x : Objects T) (slot list : ObjectId) : Prop where
  ne : slot ≠ list
  loose : ObjectTree.Loose x.root slot
  looseList : ObjectTree.Loose x.root list
  childless : ∀ n, x.root.child slot n = none
  noSlot : x.graph.slots slot = none

/-- The folders and the slots of a node are where they were. -/
structure Undisturbed (tree : ObjectTree) (planet node : ObjectId) (x y : Objects T) : Prop where
  finds : tree.Finds planet x.root → tree.Finds planet y.root
  alive : (x.graph.nodes node).isSome → (y.graph.nodes node).isSome
  slotsIn : ∀ kind, y.graph.slotsIn node kind = x.graph.slotsIn node kind
  folder : ∀ kind : SlotKind, y.root.child node kind.folder = x.root.child node kind.folder
  child : ∀ (kind : SlotKind) folder, x.root.child node kind.folder = some folder →
    ∀ n, y.root.child folder n = x.root.child folder n
  keys : ∀ kind, ∀ s ∈ x.graph.slotsIn node kind, (x.graph.slots s).isSome →
    (y.graph.slots s).map Slot.key = (x.graph.slots s).map Slot.key

/-- `new` returns memory that is not in use, and the others leave the node alone. -/
def Sound (others : Objects T → Objects T → Prop) (s : ScriptSlots T) : SlotCall R T → Prop
  | .inlet slot list _ => Unused s.objects slot list
  | .buildOutlet slot list _ => Unused s.objects slot list
  | .others x => others s.objects x

/-- One step of a run. -/
def SlotStep (tree : ObjectTree) (o : SlotTypes R T) (node : ObjectId)
    (others : Objects T → Objects T → Prop) (s : ScriptSlots T) (call : SlotCall R T)
    (s' : ScriptSlots T) : Prop :=
  Sound others s call ∧ performSlots tree o node s call = .ok s'

/-! ## The slots of a node -/

/-- Declared once more, or for the first time. -/
def declare (l : List (SlotPrototype T)) (p : SlotPrototype T) : List (SlotPrototype T) :=
  if p.name ∈ l.map SlotPrototype.name then l else l ++ [p]

/-- These are the slots of the node, in this order and under their names. -/
structure Shows (tree : ObjectTree) (planet node : ObjectId) (folder : SlotKind → ObjectId)
    (l : SlotKind → List (SlotPrototype T)) (x : Objects T) : Prop where
  finds : tree.Finds planet x.root
  alive : (x.graph.nodes node).isSome
  found : ∀ kind, x.root.child node kind.folder = some (folder kind)
  apart : ∀ kind, folder kind ≠ node
  injective : Function.Injective folder
  nodup : ∀ kind, ((l kind).map SlotPrototype.name).Nodup
  length : ∀ kind, (x.graph.slotsIn node kind).length = (l kind).length
  slot : ∀ kind i s p, (x.graph.slotsIn node kind)[i]? = some s → (l kind)[i]? = some p →
    x.root.child (folder kind) p.name = some s ∧
      (x.graph.slots s).map Slot.key = some ⟨kind, node, p.type, (i : Nat), []⟩
  only : ∀ kind n s, x.root.child (folder kind) n = some s →
    n ∈ (l kind).map SlotPrototype.name

variable {tree : ObjectTree} {planet node slot list : ObjectId} {folder : SlotKind → ObjectId}
  {kind : SlotKind} {l : SlotKind → List (SlotPrototype T)} {p : SlotPrototype T}
  {x y : Objects T}

theorem Shows.slotOf (h : Shows tree planet node folder l x) {i : Nat}
    (hp : (l kind)[i]? = some p) : ∃ s, (x.graph.slotsIn node kind)[i]? = some s ∧
      x.root.child (folder kind) p.name = some s ∧
      (x.graph.slots s).map Slot.key = some ⟨kind, node, p.type, (i : Nat), []⟩ := by
  have hi : i < (x.graph.slotsIn node kind).length := by
    rw [h.length]
    exact (List.getElem?_eq_some_iff.mp hp).1
  have hs := List.getElem?_eq_getElem hi
  exact ⟨_, hs, h.slot kind i _ p hs hp⟩

/-- A slot of the node is alive. -/
theorem Shows.isSome (h : Shows tree planet node folder l x) {s : SlotId}
    (hs : s ∈ x.graph.slotsIn node kind) : (x.graph.slots s).isSome := by
  obtain ⟨i, hi⟩ := List.mem_iff_getElem?.mp hs
  have hlt : i < (l kind).length := by
    rw [← h.length]
    exact (List.getElem?_eq_some_iff.mp hi).1
  have hkey := (h.slot kind i s _ hi (List.getElem?_eq_getElem hlt)).2
  have hsome : ((x.graph.slots s).map Slot.key).isSome = true := by rw [hkey]; rfl
  simpa using hsome

/-- Links come and go, and whoever answers for that touches no node. -/
theorem undisturbed_of_still (h : NodeClass.Still x y) : Undisturbed tree planet node x y where
  finds := by
    rw [h.root]
    exact id
  alive := by
    rw [h.keys.nodes]
    exact id
  slotsIn kind := by rw [SlotGraph.slotsIn, SlotGraph.slotsIn, h.keys.nodes]
  folder kind := by rw [h.root]
  child kind folder _ n := by rw [h.root]
  keys kind s _ _ := h.keys.slots s

section Instances

open NodeClass

variable {klass : NodeClass T} {memory : Part → ObjectId} {parent : ObjectId} {name : String}

/-- Another node is made. -/
theorem undisturbed_build (hlaw : tree.Lawful planet) (hfinds : tree.Finds planet x.root)
    (hnames : WellNamed klass) (hfresh : Fresh memory x) (htakes : Takes memory x parent name)
    (hnode : ∀ part, node ≠ memory part) :
    Undisturbed tree planet node x (klass.build tree memory parent name x) := by
  obtain ⟨hgrown, -, hfound, -⟩ := build_tree hlaw hfinds hnames hfresh htakes
  obtain ⟨hgraph, -⟩ := build_graph tree klass parent name hfresh
  refine ⟨fun _ => hfound, fun halive => ?_, fun kind => ?_, fun kind => ?_,
    fun kind folder hfolder n => ?_, fun kind s _ hs => ?_⟩
  · rwa [hgraph.nodes node (hnode .node)]
  · rw [SlotGraph.slotsIn, SlotGraph.slotsIn, hgraph.nodes node (hnode .node)]
  · rw [hgrown.child node hnode, if_neg fun heq => htakes.name kind heq.2.symm]
  · have hpart (part : Part) : folder ≠ memory part := fun heq =>
      (hfresh.loose part).child node kind.folder (heq ▸ hfolder)
    have hparent : folder ≠ parent := fun heq => htakes.parent kind node (heq ▸ hfolder)
    rw [hgrown.child folder hpart, if_neg fun heq => hparent heq.1]
  · rw [hgraph.slots s fun part heq => ?_]
    rw [heq, hfresh.noSlot part] at hs
    cases hs

theorem isSome_build (tree : ObjectTree) (klass : NodeClass T) (parent : ObjectId)
    (name : String) (hfresh : Fresh memory x) :
    ((klass.build tree memory parent name x).graph.nodes (memory .node)).isSome := by
  rw [graph_build]
  have hin := SlotGraph.newSlots_spec (n := memory .node) .inlet
    (slotTypes memory .inlet klass) (g := x.graph.newNode (memory .node))
    (by simp [SlotGraph.newNode]) (nodup_slotTypes hfresh.injective)
  exact (SlotGraph.newSlots_spec .outlet _ hin.alive (nodup_slotTypes hfresh.injective)).alive

/-- A node begins with the slots of its class. -/
theorem shows_build (hlaw : tree.Lawful planet) (hfinds : tree.Finds planet x.root)
    (hnames : WellNamed klass) (hfresh : Fresh memory x) (htakes : Takes memory x parent name) :
    Shows tree planet (memory .node) (fun kind => memory (.folder kind)) klass.slots
      (klass.build tree memory parent name x) := by
  obtain ⟨-, hinstance, hfound, -⟩ := build_tree hlaw hfinds hnames hfresh htakes
  obtain ⟨-, hslots⟩ := build_graph tree klass parent name hfresh
  have hapart {part part' : Part} (hne : part ≠ part') : memory part ≠ memory part' :=
    fun heq => hne (hfresh.injective heq)
  refine ⟨hfound, isSome_build tree klass parent name hfresh, hinstance.folder,
    fun kind => hapart (by simp), fun kind kind' heq => ?_, hnames.slots, fun kind => ?_,
    fun kind i s p hs hp => ?_, hinstance.only⟩
  · exact Part.folder.inj (hfresh.injective heq)
  · rw [hslots.registered]
    simp [slotTypes]
  · rw [hslots.registered, List.getElem?_map, getElem?_slotTypes hp] at hs
    obtain rfl := Option.some.inj hs
    exact ⟨hinstance.slot kind i p hp, by rw [hslots.slots kind i p hp]; rfl⟩

end Instances

theorem Shows.undisturbed (h : Shows tree planet node folder l x)
    (hother : Undisturbed tree planet node x y) : Shows tree planet node folder l y where
  finds := hother.finds h.finds
  alive := hother.alive h.alive
  found kind := (hother.folder kind).trans (h.found kind)
  apart := h.apart
  injective := h.injective
  nodup := h.nodup
  length kind := by rw [hother.slotsIn, h.length]
  slot kind i s p hs hp := by
    rw [hother.slotsIn] at hs
    have hmem := List.mem_of_getElem? hs
    rw [hother.child kind _ (h.found kind), hother.keys kind s hmem (h.isSome hmem)]
    exact h.slot kind i s p hs hp
  only kind n s hs := by
    rw [hother.child kind _ (h.found kind)] at hs
    exact h.only kind n s hs

/-- A folder is not where a slot will be. -/
theorem Shows.folder_ne (h : Shows tree planet node folder l x) (hunused : Unused x slot list)
    (kind : SlotKind) : folder kind ≠ slot := fun heq =>
  hunused.loose.child node kind.folder (heq ▸ h.found kind)

/-- The node has one slot more. -/
structure Added (tree : ObjectTree) (planet node : ObjectId) (kind : SlotKind)
    (folder slot : ObjectId) (p : SlotPrototype T) (x y : Objects T) : Prop where
  finds : tree.Finds planet y.root
  new : y.root.child folder p.name = some slot
  child : ∀ z n, z ≠ slot → ¬ (z = folder ∧ n = p.name) → y.root.child z n = x.root.child z n
  alive : (y.graph.nodes node).isSome
  slotsIn : ∀ kind', y.graph.slotsIn node kind' =
    if kind' = kind then x.graph.slotsIn node kind' ++ [slot] else x.graph.slotsIn node kind'
  slots : ∀ s, y.graph.slots s =
    if s = slot then some ⟨kind, node, p.type, ((x.graph.slotsIn node kind).length : Nat), []⟩
    else x.graph.slots s
  connections : ∀ s, y.graph.connections s = x.graph.connections s

theorem added_adoptSlot {folder : ObjectId} (kind : SlotKind) (hlaw : tree.Lawful planet)
    (hfinds : tree.Finds planet x.root) (halive : (x.graph.nodes node).isSome)
    (hunused : Unused x slot list) (hfolder : folder ≠ slot)
    (hfree : x.root.child folder p.name = none) :
    Added tree planet node kind folder slot p x
      (LuaScript.adoptSlot tree node kind folder slot list p x) := by
  have hpossible : ObjectTree.Possible x.root
      [⟨slot, "list", list⟩, ⟨folder, p.name, slot⟩] := by
    refine ⟨?_, ?_, ?_, ?_, ?_⟩
    · simpa using fun heq => absurd heq.symm hfolder
    · simpa using hunused.ne.symm
    · simpa using ⟨hunused.childless _, hfree⟩
    · simpa using ⟨hunused.looseList, hunused.loose⟩
    · simpa using ⟨hunused.ne.symm, hfolder.symm⟩
  obtain ⟨hall, hfound⟩ := ObjectTree.adoptAll_spec hlaw _ hfinds hpossible
  have hroot : tree.adoptAll x.root [⟨slot, "list", list⟩, ⟨folder, p.name, slot⟩] =
    (LuaScript.adoptSlot tree node kind folder slot list p x).root := rfl
  have hgraph : (LuaScript.adoptSlot tree node kind folder slot list p x).graph =
    x.graph.newSlot kind slot node p.type := rfl
  obtain ⟨object, hobject⟩ := Option.isSome_iff_exists.mp halive
  rw [hroot] at hall hfound
  refine ⟨hfound, hall.mem ⟨folder, p.name, slot⟩ (by simp), fun z n hz hn => ?_, ?_,
    fun kind' => ?_, fun s => ?_, fun s => ?_⟩
  · refine hall.other z n fun a ha heq => ?_
    rcases List.mem_cons.mp ha with rfl | ha
    · exact hz heq.1.symm
    · obtain rfl := List.mem_singleton.mp ha
      exact hn ⟨heq.1.symm, heq.2.symm⟩
  · rw [hgraph, SlotGraph.nodes_newSlot hobject, if_pos rfl]
    rfl
  · rw [hgraph, SlotGraph.slotsIn_newSlot halive]
    simp
  · rw [hgraph, SlotGraph.slots_newSlot hobject, SlotGraph.slotsIn, hobject]
  · rw [hgraph, SlotGraph.connections_newSlot halive hunused.noSlot]

theorem Added.keeps (h : Shows tree planet node folder l x)
    (hadded : Added tree planet node kind (folder kind) slot p x y)
    (hunused : Unused x slot list) (hfree : x.root.child (folder kind) p.name = none)
    {kind' : SlotKind} {n : String} {s : ObjectId} (hs : x.root.child (folder kind') n = some s) :
    y.root.child (folder kind') n = some s := by
  rw [hadded.child _ n (h.folder_ne hunused kind') fun heq => ?_, hs]
  rw [heq.1, heq.2, hfree] at hs
  cases hs

/-- A slot that is made comes behind the others. -/
theorem Shows.added (h : Shows tree planet node folder l x)
    (hadded : Added tree planet node kind (folder kind) slot p x y)
    (hunused : Unused x slot list) (hfree : x.root.child (folder kind) p.name = none)
    (hname : p.name ∉ (l kind).map SlotPrototype.name) :
    Shows tree planet node folder (Function.update l kind (l kind ++ [p])) y := by
  have hnode : node ≠ slot := by
    rintro rfl
    exact absurd ((hunused.childless _).symm.trans (h.found kind)) (by simp)
  have hne {kind' : SlotKind} {s : SlotId} (hs : s ∈ x.graph.slotsIn node kind') : s ≠ slot := by
    rintro rfl
    simpa [hunused.noSlot] using h.isSome hs
  have hslot {kind' : SlotKind} {i : Nat} {s : SlotId} {q : SlotPrototype T}
      (hs : (x.graph.slotsIn node kind')[i]? = some s) (hq : (l kind')[i]? = some q) :
      y.root.child (folder kind') q.name = some s ∧
        (y.graph.slots s).map Slot.key = some ⟨kind', node, q.type, (i : Nat), []⟩ := by
    obtain ⟨hchild, hkey⟩ := h.slot kind' i s q hs hq
    rw [hadded.slots, if_neg (hne (List.mem_of_getElem? hs))]
    exact ⟨hadded.keeps h hunused hfree hchild, hkey⟩
  refine ⟨hadded.finds, hadded.alive, fun kind' => ?_, h.apart, h.injective, fun kind' => ?_,
    fun kind' => ?_, fun kind' i s q hs hq => ?_, fun kind' n s hs => ?_⟩
  · rw [hadded.child _ _ hnode fun heq => h.apart kind heq.1.symm, h.found]
  · by_cases hk : kind' = kind
    · subst hk
      rw [Function.update_self, List.map_append, List.nodup_append']
      exact ⟨h.nodup kind', List.nodup_singleton _, by simpa using hname⟩
    · rw [Function.update_of_ne hk]
      exact h.nodup kind'
  · rw [hadded.slotsIn]
    by_cases hk : kind' = kind
    · subst hk
      simp [h.length]
    · simp [hk, h.length]
  · by_cases hk : kind' = kind
    · subst hk
      rw [hadded.slotsIn, if_pos rfl] at hs
      rw [Function.update_self] at hq
      rcases Nat.lt_or_ge i (l kind').length with hi | hi
      · rw [List.getElem?_append_left hi] at hq
        rw [List.getElem?_append_left (by rwa [h.length])] at hs
        exact hslot hs hq
      · -- the last one
        obtain rfl : i = (l kind').length := by
          have hlt := (List.getElem?_eq_some_iff.mp hq).1
          rw [List.length_append, List.length_singleton] at hlt
          omega
        obtain rfl : p = q := by simpa using hq
        obtain rfl : slot = s := by simpa [← h.length] using hs
        rw [hadded.slots, if_pos rfl, h.length]
        exact ⟨hadded.new, rfl⟩
    · rw [hadded.slotsIn, if_neg hk] at hs
      rw [Function.update_of_ne hk] at hq
      exact hslot hs hq
  · by_cases hnamed : folder kind' = folder kind ∧ n = p.name
    · obtain ⟨hk, rfl⟩ := hnamed
      rw [h.injective hk, Function.update_self]
      simp
    · rw [hadded.child _ n (h.folder_ne hunused kind') hnamed] at hs
      have hmem := h.only kind' n s hs
      by_cases hk : kind' = kind
      · subst hk
        rw [Function.update_self, List.map_append]
        exact List.mem_append_left _ hmem
      · rwa [Function.update_of_ne hk]

/-- Children of the folders are where they were, and so are links. -/
structure Kept (folder : SlotKind → ObjectId) (x y : Objects T) : Prop where
  child : ∀ kind n s, x.root.child (folder kind) n = some s → y.root.child (folder kind) n = some s
  connections : ∀ s, y.graph.connections s = x.graph.connections s

theorem Kept.refl (folder : SlotKind → ObjectId) (x : Objects T) : Kept folder x x :=
  ⟨fun _ _ _ hs => hs, fun _ => rfl⟩

theorem Shows.declared_again (h : Shows tree planet node folder l x) {s : ObjectId}
    (hs : x.root.child (folder kind) p.name = some s) :
    Function.update l kind (declare (l kind) p) = l := by
  have hdeclared : declare (l kind) p = l kind := if_pos (h.only kind _ s hs)
  rw [hdeclared, Function.update_eq_self]

theorem Shows.declared_first (h : Shows tree planet node folder l x) (hlaw : tree.Lawful planet)
    (hunused : Unused x slot list) (hfree : x.root.child (folder kind) p.name = none) :
    Shows tree planet node folder (Function.update l kind (declare (l kind) p))
        (LuaScript.adoptSlot tree node kind (folder kind) slot list p x) ∧
      Kept folder x (LuaScript.adoptSlot tree node kind (folder kind) slot list p x) ∧
      (LuaScript.adoptSlot tree node kind (folder kind) slot list p x).root.child
        (folder kind) p.name = some slot := by
  have hname : p.name ∉ (l kind).map SlotPrototype.name := by
    intro hmem
    obtain ⟨q, hq, hname⟩ := List.mem_map.mp hmem
    obtain ⟨i, hi⟩ := List.mem_iff_getElem?.mp hq
    obtain ⟨s, -, hs, -⟩ := h.slotOf hi
    rw [hname, hfree] at hs
    cases hs
  have hdeclared : declare (l kind) p = l kind ++ [p] := if_neg hname
  have hadded := added_adoptSlot kind hlaw h.finds h.alive hunused (h.folder_ne hunused kind) hfree
  rw [hdeclared]
  exact ⟨h.added hadded hunused hfree hname,
    ⟨fun _ _ _ hs => hadded.keeps h hunused hfree hs, hadded.connections⟩, hadded.new⟩

/-- The slots of both kinds, after a call. -/
def SlotCall.after (o : SlotTypes R T) (call : SlotCall R T)
    (l : SlotKind → List (SlotPrototype T)) (kind : SlotKind) : List (SlotPrototype T) :=
  (call.declares o kind).toList.foldl declare (l kind)

variable {o : SlotTypes R T} {val : HostValue R} {call : SlotCall R T}

theorem after_of_none (h : ∀ kind, call.declares o kind = none) : call.after o l = l := by
  funext kind
  simp [SlotCall.after, h]

theorem after_of_declares
    (h : ∀ kind', call.declares o kind' = if kind' = kind then some p else none) :
    call.after o l = Function.update l kind (declare (l kind) p) := by
  funext kind'
  rw [SlotCall.after, h]
  by_cases hk : kind' = kind
  · subst hk
    simp
  · simp [hk]

theorem luaInlet_spec (h : Shows tree planet node folder l x) (hlaw : tree.Lawful planet)
    (hunused : Unused x slot list) (hy : luaInlet tree o node slot list val x = .ok y) :
    Shows tree planet node folder ((SlotCall.inlet slot list val).after o l) y ∧
      Kept folder x y := by
  unfold luaInlet at hy
  obtain ⟨result, hresult, hy⟩ := Lib.exists_of_bind_eq_ok hy
  have hdeclares (kind : SlotKind) : (SlotCall.inlet slot list val).declares o kind =
      if kind = .inlet then result else none := by
    simp only [SlotCall.declares, hresult]
    cases result <;> rfl
  cases result with
  | none =>
    obtain rfl := Except.ok.inj hy
    rw [after_of_none fun kind => by rw [hdeclares, ite_self]]
    exact ⟨h, .refl folder x⟩
  | some p =>
    rw [after_of_declares hdeclares]
    simp only [h.found] at hy
    cases hchild : x.root.child (folder .inlet) p.name with
    | some s =>
      simp only [hchild] at hy
      obtain rfl := Except.ok.inj hy
      rw [h.declared_again hchild]
      exact ⟨h, .refl folder x⟩
    | none =>
      simp only [hchild] at hy
      obtain rfl := Except.ok.inj hy
      obtain ⟨hshows, hkept, -⟩ := h.declared_first hlaw hunused hchild
      exact ⟨hshows, hkept⟩

/-- The outlet that is handed over is the one of its name. -/
theorem luaBuildOutlet_spec (h : Shows tree planet node folder l x) (hlaw : tree.Lawful planet)
    (hunused : Unused x slot list) {answer : OutletAnswer}
    (hy : luaBuildOutlet tree o node slot list val x = .ok (answer, y)) :
    Shows tree planet node folder ((SlotCall.buildOutlet slot list val).after o l) y ∧
      Kept folder x y ∧
      ∀ p, (SlotCall.buildOutlet slot list val).declares o .outlet = some p →
        ∃ s, answer = .outlet s ∧ y.root.child (folder .outlet) p.name = some s := by
  unfold luaBuildOutlet at hy
  obtain ⟨result, hresult, hy⟩ := Lib.exists_of_bind_eq_ok hy
  have hdeclares (kind : SlotKind) : (SlotCall.buildOutlet slot list val).declares o kind =
      if kind = .outlet then result else none := by
    simp only [SlotCall.declares, hresult]
    cases result <;> rfl
  rw [hdeclares, if_pos rfl]
  cases result with
  | none =>
    obtain ⟨-, rfl⟩ := Prod.mk.inj (Except.ok.inj hy)
    rw [after_of_none fun kind => by rw [hdeclares, ite_self]]
    exact ⟨h, .refl folder x, by simp⟩
  | some p =>
    rw [after_of_declares hdeclares]
    simp only [h.found] at hy
    simp only [Option.some.injEq, forall_eq']
    cases hchild : x.root.child (folder .outlet) p.name with
    | some s =>
      simp only [hchild] at hy
      obtain ⟨rfl, rfl⟩ := Prod.mk.inj (Except.ok.inj hy)
      rw [h.declared_again hchild]
      exact ⟨h, .refl folder x, s, rfl, hchild⟩
    | none =>
      simp only [hchild] at hy
      obtain ⟨rfl, rfl⟩ := Prod.mk.inj (Except.ok.inj hy)
      obtain ⟨hshows, hkept, hnew⟩ := h.declared_first hlaw hunused hchild
      exact ⟨hshows, hkept, slot, rfl, hnew⟩

/-! ## Whole runs -/

/-- What holds all along a run that began with the objects `x`: outlets that were given are
in the tree, and links are there that nobody else cuts. -/
structure Holds (others : Objects T → Objects T → Prop) (folder : SlotKind → ObjectId)
    (x : Objects T) (s : ScriptSlots T) : Prop where
  given : ∀ g ∈ s.given, s.objects.root.child (folder .outlet) g.1 = some g.2
  child : ∀ kind n z, x.root.child (folder kind) n = some z →
    s.objects.root.child (folder kind) n = some z
  links : ∀ a b,
    (∀ y z, others y z → b ∈ y.graph.connections a → b ∈ z.graph.connections a) →
      b ∈ x.graph.connections a → b ∈ s.objects.graph.connections a

variable {others : Objects T → Objects T → Prop} {s s' : ScriptSlots T}

theorem Holds.kept (h : Holds others folder x s) (hkept : Kept folder s.objects y)
    {given : List (String × ObjectId)}
    (hgiven : ∀ g ∈ given, g ∈ s.given ∨ y.root.child (folder .outlet) g.1 = some g.2) :
    Holds others folder x ⟨y, given⟩ where
  given g hg := (hgiven g hg).elim (fun hg => hkept.child _ _ _ (h.given g hg)) id
  child kind n z hz := hkept.child _ _ _ (h.child kind n z hz)
  links a b hothers hb := by
    rw [hkept.connections]
    exact h.links a b hothers hb

theorem slotStep_spec (hlaw : tree.Lawful planet)
    (hothers : ∀ x y, others x y → Undisturbed tree planet node x y)
    (hshows : Shows tree planet node folder l s.objects) (h : Holds others folder x s)
    (hstep : SlotStep tree o node others s call s') :
    Shows tree planet node folder (call.after o l) s'.objects ∧ Holds others folder x s' := by
  obtain ⟨hsound, hs'⟩ := hstep
  cases call with
  | inlet slot list val =>
    obtain ⟨y, hy, hs'⟩ := Lib.exists_of_bind_eq_ok hs'
    obtain rfl := Except.ok.inj hs'
    obtain ⟨hshows', hkept⟩ := luaInlet_spec hshows hlaw hsound hy
    exact ⟨hshows', h.kept hkept fun g hg => Or.inl hg⟩
  | buildOutlet slot list val =>
    obtain ⟨⟨answer, y⟩, hy, hs'⟩ := Lib.exists_of_bind_eq_ok hs'
    obtain ⟨hshows', hkept, hanswer⟩ := luaBuildOutlet_spec hshows hlaw hsound hy
    cases hdeclares : (SlotCall.buildOutlet slot list val).declares o .outlet with
    | none =>
      obtain rfl : ⟨y, s.given⟩ = s' := by
        simp only [hdeclares] at hs'
        cases answer <;> exact Except.ok.inj hs'
      exact ⟨hshows', h.kept hkept fun g hg => Or.inl hg⟩
    | some p =>
      obtain ⟨outlet, rfl, hchild⟩ := hanswer p hdeclares
      simp only [hdeclares] at hs'
      obtain rfl := Except.ok.inj hs'
      refine ⟨hshows', h.kept hkept fun g hg => ?_⟩
      rcases List.mem_append.mp hg with hg | hg
      · exact Or.inl hg
      · obtain rfl := List.mem_singleton.mp hg
        exact Or.inr hchild
  | others y =>
    obtain rfl := Except.ok.inj hs'
    have hother := hothers _ _ hsound
    have hchild (kind : SlotKind) (n : String) :
        y.root.child (folder kind) n = s.objects.root.child (folder kind) n :=
      hother.child kind _ (hshows.found kind) n
    rw [after_of_none fun kind => rfl]
    refine ⟨hshows.undisturbed hother, fun g hg => ?_, fun kind n z hz => ?_,
      fun a b hlinks hb => hlinks _ _ hsound (h.links a b hlinks hb)⟩
    · rw [hchild, h.given g hg]
    · rw [hchild, h.child kind n z hz]

/-- The node has the slots that it had and those that were declared, each once, in the order
in which they came up first.  An outlet that was given is the one of its name, a slot stays
where it is, and a declaration cuts no link. -/
theorem slots_as_declared (hlaw : tree.Lawful planet)
    (hothers : ∀ x y, others x y → Undisturbed tree planet node x y)
    (hshows : Shows tree planet node folder l x) {calls : List (SlotCall R T)}
    (hrun : Lib.Run (SlotStep tree o node others) ⟨x, []⟩ calls s') :
    Shows tree planet node folder
        (fun kind => (calls.filterMap (·.declares o kind)).foldl declare (l kind)) s'.objects ∧
      Holds others folder x s' := by
  induction hrun with
  | nil => exact ⟨hshows, by simp, fun _ _ _ hz => hz, fun _ _ _ hb => hb⟩
  | @snoc calls t call u _ hlast ih =>
    have hafter : (fun kind =>
        ((calls ++ [call]).filterMap (·.declares o kind)).foldl declare (l kind)) =
          call.after o fun kind =>
            (calls.filterMap (·.declares o kind)).foldl declare (l kind) := by
      funext kind
      rw [List.filterMap_append, List.foldl_append, SlotCall.after]
      cases hdeclares : call.declares o kind <;> simp [hdeclares]
    rw [hafter]
    exact slotStep_spec hlaw hothers ih.1 ih.2 hlast

/-- The names are the types. -/
def plainSlots : SlotTypes Unit Unit where
  typeOf _ := ()
  lazyJson _ := ""

/-- Where the folders of the one node are. -/
def twoFolders : SlotKind → ObjectId
  | .inlet => 2
  | .outlet => 3

/-- A node with its folders. -/
def onlyScript : Objects Unit where
  root := ObjectTree.reread 0 {
    objectAt := fun _ => none
    child := fun y n => if y = 1 ∧ n = "in" then some 2 else if y = 1 ∧ n = "out" then some 3
      else none
    firstChild := fun _ => none
    url := fun _ => "" }
  graph := SlotGraph.empty.newNode 1

/-- `Outlet('note', ...)`, `inlet('beat', ...)`, `Outlet('note', ...)` again, and then
`Outlet('stop', ...)`. -/
def declarations : List (SlotCall Unit Unit) :=
  [.buildOutlet 4 5 (.list [.string "note", .list [.real (), .string "a note"]]),
    .inlet 6 7 (.list [.string "beat", .list [.real (), .string "a beat"]]),
    .buildOutlet 8 9 (.list [.string "note", .list [.real (), .string "a note"]]),
    .buildOutlet 8 9 (.list [.string "stop", .list [.real (), .string "an end"]])]

theorem onlyScript_child {y z : ObjectId} {n : String} (h : onlyScript.root.child y n = some z) :
    y = 1 ∧ (z = 2 ∨ z = 3) := by
  change (if y = 1 ∧ n = "in" then some 2 else if y = 1 ∧ n = "out" then some 3 else none) = _ at h
  split at h
  · next hy => exact ⟨hy.1, Or.inl (Option.some.inj h).symm⟩
  · split at h
    · next hy => exact ⟨hy.1, Or.inr (Option.some.inj h).symm⟩
    · cases h

theorem shows_onlyScript :
    Shows (.namedTree 0) 0 1 twoFolders (fun _ => []) onlyScript where
  finds := ObjectTree.finds_reread _
  alive := rfl
  found kind := by cases kind <;> rfl
  apart kind := by cases kind <;> decide
  injective kind kind' h := by cases kind <;> cases kind' <;> first | rfl | cases h
  nodup _ := List.nodup_nil
  length kind := by cases kind <;> rfl
  slot _ _ _ _ _ hp := by simp at hp
  only kind n s h := by
    have hnode := (onlyScript_child h).1
    cases kind <;> cases hnode

/-- There is nothing at this address, nor behind it. -/
structure UnusedFrom (x : Objects T) (free : Nat) : Prop where
  child : ∀ (y : Nat) n (z : Nat), x.root.child y n = some z → y < free ∧ z < free
  firstChild : ∀ y (z : Nat), x.root.firstChild y = some z → z < free
  noSlot : ∀ s : Nat, free ≤ s → x.graph.slots s = none

theorem unusedFrom_onlyScript : UnusedFrom onlyScript 4 where
  child y n z h := by
    obtain ⟨rfl, rfl | rfl⟩ := onlyScript_child h <;> decide
  firstChild _ _ h := nomatch h
  noSlot _ _ := rfl

theorem UnusedFrom.unused {free : Nat} (h : UnusedFrom x free) : Unused x free (free + 1) where
  ne := (Nat.lt_succ_self free).ne
  loose := ⟨fun y n hz => (h.child y n free hz).2.false, fun y hz => (h.firstChild y _ hz).false⟩
  looseList := by
    have hfree : ¬ free + 1 < free := by omega
    exact ⟨fun y n hz => hfree (h.child y n _ hz).2, fun y hz => hfree (h.firstChild y _ hz)⟩
  childless n := Option.eq_none_iff_forall_ne_some.mpr fun z hz => (h.child free n z hz).1.false
  noSlot := h.noSlot free le_rfl

theorem UnusedFrom.adopt {parent child free : Nat} {name : String} (h : UnusedFrom x free)
    (hparent : parent < free) (hchild : child < free) :
    UnusedFrom (NodeClass.adopt (.namedTree planet) parent child name x) free where
  child y n z hz := by
    rcases ObjectTree.child_adopt_namedTree hz with ⟨rfl, rfl⟩ | hz
    · exact ⟨hparent, hchild⟩
    · exact h.child y n z hz
  firstChild y z hz := by
    rcases ObjectTree.firstChild_adopt_namedTree hz with rfl | hz
    · exact hchild
    · exact h.firstChild y z hz
  noSlot := h.noSlot

/-- Two addresses are used up. -/
theorem UnusedFrom.adoptSlot {free folder : Nat} (h : UnusedFrom x free)
    (halive : (x.graph.nodes node).isSome) (hfolder : folder < free) :
    UnusedFrom (LuaScript.adoptSlot (.namedTree planet) node kind folder free (free + 1) p x)
      (free + 2) := by
  obtain ⟨object, hobject⟩ := Option.isSome_iff_exists.mp halive
  have hmore : UnusedFrom x (free + 2) :=
    ⟨fun y n z hz => by have := h.child y n z hz; omega,
      fun y z hz => by have := h.firstChild y z hz; omega,
      fun s hs => h.noSlot s (by omega)⟩
  have hlist : UnusedFrom (NodeClass.adopt (.namedTree planet) free (free + 1) "list" x)
      (free + 2) := hmore.adopt (by omega) (by omega)
  have hslot : UnusedFrom { NodeClass.adopt (.namedTree planet) free (free + 1) "list" x with
      graph := x.graph.newSlot kind free node p.type } (free + 2) := by
    refine ⟨hlist.child, hlist.firstChild, fun s hs => ?_⟩
    change (x.graph.newSlot kind free node p.type).slots s = none
    rw [SlotGraph.slots_newSlot hobject, if_neg (Nat.ne_of_gt (by omega)), hmore.noSlot s hs]
  exact hslot.adopt (by omega) (by omega)

theorem slots_as_declared_four :
    ∃ s' : ScriptSlots Unit, Lib.Run (SlotStep (.namedTree 0) plainSlots 1 NodeClass.Still)
        ⟨onlyScript, []⟩ declarations s' ∧
      s'.given = [("note", 4), ("note", 4), ("stop", 8)] ∧
      Shows (.namedTree 0) 0 1 twoFolders (fun kind =>
        (declarations.filterMap (·.declares plainSlots kind)).foldl declare []) s'.objects ∧
      Holds NodeClass.Still twoFolders onlyScript s' := by
  let note : Objects Unit := adoptSlot (.namedTree 0) 1 .outlet 3 4 5 ⟨"note", ()⟩ onlyScript
  let beat : Objects Unit := adoptSlot (.namedTree 0) 1 .inlet 2 6 7 ⟨"beat", ()⟩ note
  let stop : Objects Unit := adoptSlot (.namedTree 0) 1 .outlet 3 8 9 ⟨"stop", ()⟩ beat
  have hnote : UnusedFrom note 6 := unusedFrom_onlyScript.adoptSlot rfl (by decide)
  have hbeat : UnusedFrom beat 8 := hnote.adoptSlot rfl (by decide)
  have hrun : Lib.Run (SlotStep (.namedTree 0) plainSlots 1 NodeClass.Still) ⟨onlyScript, []⟩
      declarations ⟨stop, [("note", 4), ("note", 4), ("stop", 8)]⟩ := by
    refine .cons (t := ⟨note, [("note", 4)]⟩) ⟨unusedFrom_onlyScript.unused, rfl⟩ ?_
    refine .cons (t := ⟨beat, [("note", 4)]⟩) ⟨hnote.unused, rfl⟩ ?_
    refine .cons (t := ⟨beat, [("note", 4), ("note", 4)]⟩) ⟨hbeat.unused, rfl⟩ ?_
    exact .one ⟨hbeat.unused, rfl⟩
  exact ⟨_, hrun, rfl, slots_as_declared (ObjectTree.lawful_namedTree 0)
    (fun _ _ => undisturbed_of_still) shows_onlyScript hrun⟩

end LuaScript

end Rubyk
