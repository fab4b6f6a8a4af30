/-
  Core/SlotSteps.lean --- what the operations on slots do to the links.

  An operation changes objects in two ways.  It rewrites `connections_` lists, and
  then the keys of all slots stay (`SameKeys`); or it changes the key of one slot,
  or of one node, and then sorts lists again (`Resorted`).
-/
import Rubyk.Core.Slot

set_option autoImplicit false

namespace Rubyk

/-- A slot without its links. -/
def Slot.key {T : Type} (slot : Slot T) : Slot T := { slot with connections := [] }

theorem Slot.kind_of_key {T : Type} {slot other : Slot T} (h : slot.key = other.key) :
    slot.kind = other.kind := (Slot.mk.inj h).1

theorem Slot.node_of_key {T : Type} {slot other : Slot T} (h : slot.key = other.key) :
    slot.node = other.node := (Slot.mk.inj h).2.1

theorem Slot.type_of_key {T : Type} {slot other : Slot T} (h : slot.key = other.key) :
    slot.type = other.type := (Slot.mk.inj h).2.2.1

theorem Slot.id_of_key {T : Type} {slot other : Slot T} (h : slot.key = other.key) :
    slot.id = other.id := (Slot.mk.inj h).2.2.2.1

namespace SlotGraph

variable {T : Type} {g g' g'' : SlotGraph T} {s t u : SlotId} {n : NodeId}

/-! ## Reading after writing -/

/-- Whether the slot lives, and its kind. -/
def kindOf (g : SlotGraph T) (s : SlotId) : Option SlotKind := (g.slots s).map Slot.kind

theorem isSome_kindOf (g : SlotGraph T) (s : SlotId) :
    (g.kindOf s).isSome = (g.slots s).isSome := by simp [kindOf]

theorem connections_of_slots {slot : Slot T} (h : g.slots s = some slot) :
    g.connections s = slot.connections := by simp [connections, h]

theorem connections_of_dead (h : g.slots s = none) : g.connections s = [] := by
  simp [connections, h]

@[simp] theorem slots_modifySlot (f : Slot T → Slot T) :
    (g.modifySlot s f).slots t = if t = s then (g.slots t).map f else g.slots t := by
  by_cases h : t = s
  · subst h
    simp [modifySlot]
  · simp [modifySlot, h]

@[simp] theorem nodes_modifySlot (f : Slot T → Slot T) :
    (g.modifySlot s f).nodes = g.nodes := rfl

@[simp] theorem slots_modifyNode (f : Node → Node) :
    (g.modifyNode n f).slots = g.slots := rfl

@[simp] theorem nodes_modifyNode (f : Node → Node) (m : NodeId) :
    (g.modifyNode n f).nodes m = if m = n then (g.nodes m).map f else g.nodes m := by
  by_cases h : m = n
  · subst h
    simp [modifyNode]
  · simp [modifyNode, h]

@[simp] theorem connections_modifyNode (f : Node → Node) :
    (g.modifyNode n f).connections s = g.connections s := rfl

@[simp] theorem kindOf_modifyNode (f : Node → Node) :
    (g.modifyNode n f).kindOf s = g.kindOf s := rfl

theorem connections_modifySlot {f : Slot T → Slot T}
    (hf : ∀ slot, (f slot).connections = slot.connections) :
    (g.modifySlot s f).connections t = g.connections t := by
  by_cases hts : t = s
  · subst hts
    cases hslot : g.slots t <;> simp [connections, hslot, hf]
  · simp [connections, hts]

theorem kindOf_modifySlot {f : Slot T → Slot T} (hf : ∀ slot, (f slot).kind = slot.kind) :
    (g.modifySlot s f).kindOf t = g.kindOf t := by
  by_cases hts : t = s
  · subst hts
    cases hslot : g.slots t <;> simp [kindOf, hslot, hf]
  · simp [kindOf, hts]

/-- Writing to the list of a live slot. -/
theorem connections_modifyConnections {f : List SlotId → List SlotId}
    (h : (g.slots s).isSome ∨ f [] = []) :
    (g.modifyConnections s f).connections t =
      if t = s then f (g.connections t) else g.connections t := by
  by_cases hts : t = s
  · subst hts
    cases hslot : g.slots t with
    | none => simp_all [modifyConnections, connections]
    | some slot => simp [modifyConnections, connections, hslot]
  · simp [modifyConnections, connections, hts]

/-! ## Writing to the links only -/

/-- The graphs differ in the links at most. -/
structure SameKeys (g g' : SlotGraph T) : Prop where
  counter : g'.sIdCounter = g.sIdCounter
  nodes : g'.nodes = g.nodes
  slots : ∀ s, (g'.slots s).map Slot.key = (g.slots s).map Slot.key

namespace SameKeys

theorem refl (g : SlotGraph T) : SameKeys g g := ⟨rfl, rfl, fun _ => rfl⟩

theorem trans (h : SameKeys g g') (h' : SameKeys g' g'') : SameKeys g g'' :=
  ⟨h'.counter.trans h.counter, h'.nodes.trans h.nodes,
    fun s => (h'.slots s).trans (h.slots s)⟩

theorem modifyConnections (g : SlotGraph T) (s : SlotId) (f : List SlotId → List SlotId) :
    SameKeys g (g.modifyConnections s f) := by
  refine ⟨rfl, rfl, fun t => ?_⟩
  by_cases h : t = s
  · subst h
    cases hslot : g.slots t with
    | none => simp [SlotGraph.modifyConnections, hslot]
    | some slot => simp [SlotGraph.modifyConnections, hslot, Slot.key]
  · simp [SlotGraph.modifyConnections, h]

theorem of_slots {slot : Slot T} (h : SameKeys g g') (hslot : g.slots s = some slot) :
    ∃ slot', g'.slots s = some slot' ∧ slot'.key = slot.key := by
  have hkey := h.slots s
  rw [hslot] at hkey
  cases hslot' : g'.slots s with
  | none => simp [hslot'] at hkey
  | some slot' => exact ⟨slot', rfl, by simpa [hslot'] using hkey⟩

theorem symm (h : SameKeys g g') : SameKeys g' g :=
  ⟨h.counter.symm, h.nodes.symm, fun s => (h.slots s).symm⟩

theorem isSome (h : SameKeys g g') (s : SlotId) : (g'.slots s).isSome = (g.slots s).isSome := by
  simpa using congrArg Option.isSome (h.slots s)

theorem kindOf (h : SameKeys g g') (s : SlotId) : g'.kindOf s = g.kindOf s := by
  have hkey := congrArg (Option.map Slot.kind) (h.slots s)
  simpa [SlotGraph.kindOf, Slot.key, Function.comp_def] using hkey

theorem triggerPosition (h : SameKeys g g') (n : NodeId) :
    g'.triggerPosition n = g.triggerPosition n := by
  simp [SlotGraph.triggerPosition, h.nodes]

/-- The order of slots does not depend on links. -/
theorem ge (h : SameKeys g g') : g'.ge = g.ge := by
  funext s t
  have hs := h.slots s
  have ht := h.slots t
  unfold SlotGraph.ge
  cases hslot : g.slots s <;> cases hslot' : g'.slots s <;>
    cases hother : g.slots t <;> cases hother' : g'.slots t <;>
    simp_all [Slot.key, h.triggerPosition]

end SameKeys

/-! ## Sorting lists again -/

/-- The sending order: greater trigger positions first, and greater ids first within
a node. -/
def Before (g : SlotGraph T) (s t : SlotId) : Prop :=
  ∀ slot other, g.slots s = some slot → g.slots t = some other →
    g.triggerPosition other.node ≤ g.triggerPosition slot.node ∧
      (other.node = slot.node → other.id ≤ slot.id)

/-- Distinct nodes have distinct trigger positions. -/
def DistinctPositions (g : SlotGraph T) : Prop :=
  ∀ n m node other, g.nodes n = some node → g.nodes m = some other →
    node.triggerPosition = other.triggerPosition → n = m

/-- The comparison of linked slots makes sense. -/
structure Comparable (g : SlotGraph T) : Prop where
  live : ∀ s, ∀ t ∈ g.connections s, (g.slots t).isSome
  nodes : ∀ s slot, g.slots s = some slot → (g.nodes slot.node).isSome
  distinct : DistinctPositions g

/-- Both graphs give the slot the same place in the sending order. -/
structure SamePlace (g g' : SlotGraph T) (s : SlotId) : Prop where
  key : (g'.slots s).map Slot.key = (g.slots s).map Slot.key
  position : ∀ slot, g.slots s = some slot →
    g'.triggerPosition slot.node = g.triggerPosition slot.node

theorem SameKeys.samePlace (h : SameKeys g g') (s : SlotId) : SamePlace g g' s :=
  ⟨h.slots s, fun slot _ => h.triggerPosition slot.node⟩

theorem SamePlace.kindOf (h : SamePlace g g' s) : g'.kindOf s = g.kindOf s := by
  have hkey := congrArg (Option.map Slot.kind) h.key
  simpa [SlotGraph.kindOf, Slot.key, Function.comp_def] using hkey

theorem SamePlace.of_slots {slot' : Slot T} (h : SamePlace g g' s)
    (hslot' : g'.slots s = some slot') :
    ∃ slot, g.slots s = some slot ∧ slot'.key = slot.key ∧
      g'.triggerPosition slot'.node = g.triggerPosition slot.node := by
  have hkey := h.key
  rw [hslot'] at hkey
  cases hslot : g.slots s with
  | none => simp [hslot] at hkey
  | some slot =>
    have heq : slot'.key = slot.key := by simpa [hslot] using hkey
    have hnode : slot'.node = slot.node := Slot.node_of_key heq
    exact ⟨slot, rfl, heq, by rw [hnode]; exact h.position slot hslot⟩

theorem Before.samePlace (hst : Before g s t) (hs : SamePlace g g' s)
    (ht : SamePlace g g' t) : Before g' s t := by
  intro slot' other' hslot' hother'
  obtain ⟨slot, hslot, hkey, hpos⟩ := hs.of_slots hslot'
  obtain ⟨other, hother, hkey', hpos'⟩ := ht.of_slots hother'
  have hnode : slot'.node = slot.node := Slot.node_of_key hkey
  have hnode' : other'.node = other.node := Slot.node_of_key hkey'
  have hid : slot'.id = slot.id := Slot.id_of_key hkey
  have hid' : other'.id = other.id := Slot.id_of_key hkey'
  rw [hpos, hpos', hnode, hnode', hid, hid']
  exact hst slot other hslot hother

theorem SameKeys.before (h : SameKeys g g') : Before g' s t ↔ Before g s t :=
  ⟨fun hst => hst.samePlace (h.symm.samePlace s) (h.symm.samePlace t),
    fun hst => hst.samePlace (h.samePlace s) (h.samePlace t)⟩

theorem before_of_ge (h : g.ge s t = true) : Before g t s := by
  intro other slot hother hslot
  rw [ge, hslot, hother] at h
  by_cases hnode : slot.node = other.node
  · have hid : slot.id < other.id := by simpa [hnode] using h
    exact ⟨by rw [hnode], fun _ => hid.le⟩
  · have hpos : g.triggerPosition slot.node < g.triggerPosition other.node := by
      simpa [hnode] using h
    exact ⟨hpos.le, fun heq => absurd heq hnode⟩

theorem before_of_not_ge (h : g.ge s t = false) : Before g s t := by
  intro slot other hslot hother
  rw [ge, hslot, hother] at h
  by_cases hnode : slot.node = other.node
  · have hid : other.id ≤ slot.id := by simpa [hnode] using h
    exact ⟨by rw [hnode], fun _ => hid⟩
  · have hpos : g.triggerPosition other.node ≤ g.triggerPosition slot.node := by
      simpa [hnode] using h
    exact ⟨hpos, fun heq => absurd heq.symm hnode⟩

/-- Distinct positions make the sending order transitive: equal positions at both
ends mean one node throughout. -/
theorem Comparable.before_trans (h : Comparable g) (ht : (g.slots t).isSome)
    (hst : Before g s t) (htu : Before g t u) : Before g s u := by
  intro slot third hslot hthird
  obtain ⟨other, hother⟩ := Option.isSome_iff_exists.mp ht
  obtain ⟨hpos, hid⟩ := hst slot other hslot hother
  obtain ⟨hpos', hid'⟩ := htu other third hother hthird
  refine ⟨hpos'.trans hpos, fun hnode => ?_⟩
  have heq : g.triggerPosition other.node = g.triggerPosition slot.node :=
    le_antisymm hpos (by rwa [hnode] at hpos')
  have hsame : other.node = slot.node := by
    obtain ⟨n, hn⟩ := Option.isSome_iff_exists.mp (h.nodes s slot hslot)
    obtain ⟨m, hm⟩ := Option.isSome_iff_exists.mp (h.nodes t other hother)
    refine h.distinct _ _ m n hm hn ?_
    simpa [triggerPosition, hn, hm] using heq
  exact (hid' (hnode.trans hsame.symm)).trans (hid hsame)

/-- The slots in `sorted` had their lists sorted again; nothing else happened. -/
structure Resorted (g g' : SlotGraph T) (sorted : SlotId → Prop) : Prop extends
    SameKeys g g' where
  mem : ∀ s t, t ∈ g'.connections s ↔ t ∈ g.connections s
  nodup : ∀ s, (g.connections s).Nodup → (g'.connections s).Nodup
  ordered : Comparable g → ∀ s, sorted s → (g'.connections s).Pairwise (Before g)
  untouched : ∀ s, ¬ sorted s → g'.connections s = g.connections s

namespace Resorted

variable {p q : SlotId → Prop}

theorem comparable (h : Resorted g g' p) (hg : Comparable g) : Comparable g' where
  live := by
    intro s t ht
    rw [h.isSome]
    exact hg.live s t ((h.mem s t).mp ht)
  nodes := by
    intro s slot' hslot'
    obtain ⟨slot, hslot, hkey⟩ := h.symm.of_slots hslot'
    rw [h.toSameKeys.nodes, ← Slot.node_of_key hkey]
    exact hg.nodes s slot hslot
  distinct := by
    unfold DistinctPositions
    rw [h.toSameKeys.nodes]
    exact hg.distinct

theorem refl (g : SlotGraph T) : Resorted g g fun _ => False :=
  ⟨SameKeys.refl g, fun _ _ => Iff.rfl, fun _ h => h, by simp, fun _ _ => rfl⟩

theorem trans (h : Resorted g g' p) (h' : Resorted g' g'' q) :
    Resorted g g'' fun s => p s ∨ q s where
  toSameKeys := h.toSameKeys.trans h'.toSameKeys
  mem := fun s t => (h'.mem s t).trans (h.mem s t)
  nodup := fun s hs => h'.nodup s (h.nodup s hs)
  ordered := by
    intro hg s hs
    by_cases hq : q s
    · exact (h'.ordered (h.comparable hg) s hq).imp fun hb => h.before.mp hb
    · rw [h'.untouched s hq]
      exact h.ordered hg s (hs.resolve_right hq)
  untouched := by
    intro s hs
    obtain ⟨hp, hq⟩ := not_or.mp hs
    rw [h'.untouched s hq, h.untouched s hp]

theorem congr (h : Resorted g g' p) (hpq : ∀ s, p s ↔ q s) : Resorted g g' q := by
  obtain rfl : p = q := funext fun s => propext (hpq s)
  exact h

end Resorted

theorem resorted_sortConnections (g : SlotGraph T) (s : SlotId) :
    Resorted g (g.sortConnections s) fun t => t = s := by
  have hconn : ∀ t, (g.sortConnections s).connections t =
      if t = s then OrderedList.sort g.ge (g.connections t) else g.connections t :=
    fun t => connections_modifyConnections (Or.inr rfl)
  refine ⟨SameKeys.modifyConnections g s _, fun t u => ?_, fun t ht => ?_, fun hg t hts => ?_,
    fun t ht => ?_⟩
  · rw [hconn]
    split <;> simp
  · rw [hconn]
    split
    · exact OrderedList.sort_nodup _ _
    · exact ht
  · rw [hconn, if_pos hts]
    refine OrderedList.sort_pairwise (fun x _ y _ => before_of_ge)
      (fun x _ y _ => before_of_not_ge) ?_
    intro x _ y hy z _
    exact hg.before_trans (hg.live t y hy)
  · rw [hconn, if_neg ht]

theorem resorted_foldl {β : Type} {f : SlotGraph T → β → SlotGraph T}
    {touches : SlotGraph T → β → SlotId → Prop}
    (hf : ∀ g b, Resorted g (f g b) (touches g b))
    (htouches : ∀ g g' p b s, Resorted g g' p → (touches g' b s ↔ touches g b s))
    (bs : List β) (g : SlotGraph T) :
    Resorted g (bs.foldl f g) fun s => ∃ b ∈ bs, touches g b s := by
  induction bs generalizing g with
  | nil => exact (Resorted.refl g).congr (by simp)
  | cons b bs ih =>
    refine ((hf g b).trans (ih (f g b))).congr fun s => ?_
    simp [htouches g (f g b) _ _ s (hf g b)]

theorem resorted_sortIncomingConnections (g : SlotGraph T) (s : SlotId) :
    Resorted g (g.sortIncomingConnections s) fun t => t ∈ g.connections s :=
  (resorted_foldl resorted_sortConnections (fun _ _ _ _ _ _ => Iff.rfl) _ g).congr
    (by simp [OrderedList.begin])

theorem resorted_sortNode (g : SlotGraph T) (n : NodeId) :
    Resorted g (g.sortNode n) fun t =>
      ∃ node, g.nodes n = some node ∧ ∃ s ∈ node.inlets, t ∈ g.connections s := by
  unfold sortNode
  cases hn : g.nodes n with
  | none => exact (Resorted.refl g).congr (by simp)
  | some node =>
    refine (resorted_foldl resorted_sortIncomingConnections ?_ node.inlets g).congr (by simp)
    intro g g' p b s h
    exact h.mem b s

/-! ## Building slots -/

@[simp] theorem slotsOf_setSlotsOf (node : Node) (kind kind' : SlotKind) (l : List SlotId) :
    (node.setSlotsOf kind l).slotsOf kind' =
      if kind' = kind then l else node.slotsOf kind' := by
  cases kind <;> cases kind' <;> rfl

@[simp] theorem triggerPosition_setSlotsOf (node : Node) (kind : SlotKind)
    (l : List SlotId) : (node.setSlotsOf kind l).triggerPosition = node.triggerPosition := by
  cases kind <;> rfl

/-- A new slot is not linked, so `set_id` sorts nothing. -/
theorem newSlot_eq {node : Node} (hn : g.nodes n = some node) (kind : SlotKind)
    (s : SlotId) (type : T) :
    g.newSlot kind s n type =
      { g with
        slots := Function.update g.slots s
          (some ⟨kind, n, type, (node.slotsOf kind).length, []⟩)
        nodes := Function.update g.nodes n
          (some (node.setSlotsOf kind (node.slotsOf kind ++ [s]))) } := by
  simp [newSlot, registerIn, hn, setId, sortIncomingConnections, OrderedList.begin,
    modifySlot, modifyNode, connections]

theorem slots_newSlot {node : Node} (hn : g.nodes n = some node) (kind : SlotKind)
    (s : SlotId) (type : T) (t : SlotId) :
    (g.newSlot kind s n type).slots t =
      if t = s then some ⟨kind, n, type, (node.slotsOf kind).length, []⟩ else g.slots t := by
  rw [newSlot_eq hn]
  by_cases hts : t = s
  · subst hts
    simp
  · simp [hts]

theorem nodes_newSlot {node : Node} (hn : g.nodes n = some node) (kind : SlotKind)
    (s : SlotId) (type : T) (m : NodeId) :
    (g.newSlot kind s n type).nodes m =
      if m = n then some (node.setSlotsOf kind (node.slotsOf kind ++ [s])) else g.nodes m := by
  rw [newSlot_eq hn]
  by_cases hmn : m = n
  · subst hmn
    simp
  · simp [hmn]

/-- A constructor gets memory that no live object occupies, and makes no link. -/
theorem connections_newSlot (hn : (g.nodes n).isSome) (hs : g.slots s = none)
    (kind : SlotKind) (type : T) (t : SlotId) :
    (g.newSlot kind s n type).connections t = g.connections t := by
  obtain ⟨node, hnode⟩ := Option.isSome_iff_exists.mp hn
  by_cases hts : t = s
  · subst hts
    simp [connections, slots_newSlot hnode, hs]
  · simp [connections, slots_newSlot hnode, hts]

theorem samePlace_newSlot (hn : (g.nodes n).isSome) (kind : SlotKind) (type : T)
    (hts : t ≠ s) : SamePlace g (g.newSlot kind s n type) t := by
  obtain ⟨node, hnode⟩ := Option.isSome_iff_exists.mp hn
  refine ⟨by simp [slots_newSlot hnode, hts], fun slot _ => ?_⟩
  by_cases hm : slot.node = n
  · simp [triggerPosition, nodes_newSlot hnode, hm, hnode]
  · simp [triggerPosition, nodes_newSlot hnode, hm]

/-! ## Making and removing links -/

section Links

variable {noType : T → Bool} {canReceive : T → T → Bool}

/-- The type test is the same from both ends. -/
theorem compatible_comm (slot other : Slot T) :
    compatible noType canReceive slot other = compatible noType canReceive other slot := by
  unfold compatible
  rw [Bool.or_comm (noType slot.type)]
  split
  · rfl
  · rw [Bool.or_comm]

/-- One of two compatible slots is an inlet. -/
theorem kind_of_compatible {slot other : Slot T}
    (h : compatible noType canReceive slot other = true) :
    slot.kind = .inlet ∨ other.kind = .inlet := by
  unfold compatible at h
  split at h
  · cases h
  · simp only [Bool.or_eq_true, Bool.and_eq_true, decide_eq_true_eq] at h
    exact h.imp And.left And.left

variable (noType canReceive g) in
/-- `connect` does nothing, or makes both halves of the link. -/
theorem connect_cases (hst : s ≠ t) :
    (connect noType canReceive g s t).2 = g ∨
      ∃ slot other, g.slots s = some slot ∧ g.slots t = some other ∧
        compatible noType canReceive slot other = true ∧
        (connect noType canReceive g s t).2 =
          (g.modifyConnections s (OrderedList.push g.ge t)).modifyConnections t
            (OrderedList.push g.ge s) := by
  unfold connect
  cases hs : g.slots s with
  | none => left; simp [addConnection, hs]
  | some slot =>
    cases ht : g.slots t with
    | none => left; simp [addConnection, hs, ht]
    | some other =>
      cases hc : compatible noType canReceive slot other with
      | false => left; simp [addConnection, hs, ht, hc]
      | true =>
        right
        refine ⟨slot, other, rfl, rfl, hc, ?_⟩
        have hge : (g.modifyConnections s (OrderedList.push g.ge t)).ge = g.ge :=
          (SameKeys.modifyConnections g s _).ge
        have hback : compatible noType canReceive other
            { slot with connections := OrderedList.push g.ge t slot.connections } = true :=
          (compatible_comm slot other).symm.trans hc
        have hts : ¬ t = s := fun h => hst h.symm
        have hother : (g.modifyConnections s (OrderedList.push g.ge t)).slots t =
            some other := by simp [modifyConnections, hts, ht]
        have hslot : (g.modifyConnections s (OrderedList.push g.ge t)).slots s =
            some { slot with connections := OrderedList.push g.ge t slot.connections } := by
          simp [modifyConnections, hs]
        simp only [addConnection, hs, ht, hc, if_true, hother, hslot, hback, hge]

/-- The two lists after `connect` made a link. -/
theorem connections_connect {slot other : Slot T} (hst : s ≠ t) (hs : g.slots s = some slot)
    (ht : g.slots t = some other) (u : SlotId) :
    ((g.modifyConnections s (OrderedList.push g.ge t)).modifyConnections t
      (OrderedList.push g.ge s)).connections u =
      if u = s then OrderedList.push g.ge t (g.connections u)
      else if u = t then OrderedList.push g.ge s (g.connections u) else g.connections u := by
  have hlive : ((g.modifyConnections s (OrderedList.push g.ge t)).slots t).isSome := by
    rw [(SameKeys.modifyConnections g s _).isSome, ht]
    rfl
  rw [connections_modifyConnections (Or.inl hlive),
    connections_modifyConnections (Or.inl (by simp [hs]))]
  by_cases hus : u = s
  · subst hus
    simp [hst]
  · simp [hus]

variable (noType canReceive) in
theorem sameKeys_addConnection (g : SlotGraph T) (s t : SlotId) :
    SameKeys g (addConnection noType canReceive g s t).2 := by
  unfold addConnection
  split
  · split
    · exact SameKeys.modifyConnections g s _
    · exact SameKeys.refl g
  · exact SameKeys.refl g

variable (noType canReceive) in
theorem sameKeys_connect (g : SlotGraph T) (s t : SlotId) :
    SameKeys g (connect noType canReceive g s t).2 := by
  have hfirst := sameKeys_addConnection noType canReceive g s t
  unfold connect
  rcases hadd : addConnection noType canReceive g s t with ⟨_ | _, g'⟩
  · simpa [hadd] using hfirst
  · rw [hadd] at hfirst
    exact hfirst.trans (sameKeys_addConnection noType canReceive g' t s)

theorem sameKeys_disconnect : SameKeys g (g.disconnect s t) :=
  (SameKeys.modifyConnections g s fun l => (OrderedList.remove t l).2).trans
    (SameKeys.modifyConnections _ t fun l => (OrderedList.remove s l).2)

/-- The two lists after `disconnect`. -/
theorem connections_disconnect (hst : s ≠ t) (u : SlotId) :
    (g.disconnect s t).connections u =
      if u = s then (g.connections u).erase t
      else if u = t then (g.connections u).erase s else g.connections u := by
  unfold disconnect removeConnection
  rw [connections_modifyConnections (Or.inr rfl), connections_modifyConnections (Or.inr rfl)]
  by_cases hus : u = s
  · subst hus
    simp [hst]
  · simp [hus]

theorem disconnect_sublist (hst : s ≠ t) (u : SlotId) :
    ((g.disconnect s t).connections u).Sublist (g.connections u) := by
  rw [connections_disconnect hst]
  split
  · exact List.erase_sublist
  · split
    · exact List.erase_sublist
    · exact List.Sublist.refl _

theorem sameKeys_removeFromConnections (s : SlotId) (l : List SlotId) (g : SlotGraph T) :
    SameKeys g (removeFromConnections s l g) := by
  induction l generalizing g with
  | nil => exact SameKeys.refl g
  | cons t rest ih =>
    have hhead := SameKeys.modifyConnections g t fun l => (OrderedList.remove s l).2
    have htail := SameKeys.modifyConnections (g.removeConnection t s) s OrderedList.pop
    exact (hhead.trans htail).trans (ih _)

/-- The destructor takes the slot out of the lists of the slots in its own list. -/
theorem connections_removeFromConnections {l : List SlotId} (hs : s ∉ l) (hl : l.Nodup)
    {u : SlotId} (hus : u ≠ s) (g : SlotGraph T) :
    (removeFromConnections s l g).connections u =
      if u ∈ l then (g.connections u).erase s else g.connections u := by
  induction l generalizing g with
  | nil => simp [removeFromConnections]
  | cons t rest ih =>
    obtain ⟨hst, hsrest⟩ := not_or.mp (fun h => hs (List.mem_cons.mpr h))
    obtain ⟨htrest, hrest⟩ := List.nodup_cons.mp hl
    rw [removeFromConnections, ih hsrest hrest,
      connections_modifyConnections (Or.inr rfl), if_neg hus, removeConnection,
      connections_modifyConnections (Or.inr rfl)]
    by_cases hut : u = t
    · subst hut
      simp [htrest]
    · simp [hut]

theorem nodes_destroy {slot : Slot T} (hs : g.slots s = some slot) :
    (g.destroy s).nodes = (g.unregisterIn slot.node slot.kind s).nodes := by
  simp only [destroy, hs]
  exact (sameKeys_removeFromConnections s slot.connections _).nodes

/-- The destructor changes no other slot. -/
theorem samePlace_destroy (hts : t ≠ s) : SamePlace g (g.destroy s) t := by
  cases hs : g.slots s with
  | none =>
    simp only [destroy, hs]
    exact (SameKeys.refl g).samePlace t
  | some slot =>
    refine ⟨?_, fun other _ => ?_⟩
    · simp only [destroy, hs, Function.update_of_ne hts]
      exact (sameKeys_removeFromConnections s slot.connections _).slots t
    · unfold triggerPosition
      rw [nodes_destroy hs, unregisterIn, nodes_modifyNode]
      by_cases hn : other.node = slot.node
      · cases hnode : g.nodes slot.node <;> simp [hn, hnode]
      · simp [hn]

/-- The links after the destructor: all links of the slot are gone, at both ends. -/
theorem connections_destroy (hirrefl : s ∉ g.connections s)
    (hnodup : (g.connections s).Nodup) (t : SlotId) :
    (g.destroy s).connections t =
      if t = s then []
      else if t ∈ g.connections s then (g.connections t).erase s else g.connections t := by
  unfold destroy
  cases hs : g.slots s with
  | none =>
    have hnil := connections_of_dead hs
    by_cases hts : t = s
    · simp [hts, hnil]
    · simp [hts, hnil]
  | some slot =>
    by_cases hts : t = s
    · simp [connections, hts]
    · rw [connections_of_slots hs] at hirrefl hnodup ⊢
      have hlast : ∀ g : SlotGraph T,
          connections { g with slots := Function.update g.slots s none } t = g.connections t :=
        fun g => by simp [connections, hts]
      rw [if_neg hts, hlast, connections_removeFromConnections hirrefl hnodup hts]
      rfl

/-! ## One step -/

variable (noType canReceive) in
/-- The operation as it is performed, with the guards it passed. -/
def Performed (g : SlotGraph T) : SlotAction T → SlotGraph T → Prop
  | .newNode n, g' => g.nodes n = none ∧ g' = g.newNode n
  | .newSlot kind s n type, g' =>
      g.slots s = none ∧ (g.nodes n).isSome ∧ g' = g.newSlot kind s n type
  | .connect s t, g' => s ≠ t ∧ g' = (connect noType canReceive g s t).2
  | .disconnect s t, g' => s ≠ t ∧ g' = g.disconnect s t
  | .setId s id, g' => g' = g.setId s id
  | .setTriggerPosition n value, g' => g' = g.setTriggerPosition n value
  | .destroy s, g' => g' = g.destroy s

theorem performed {a : SlotAction T} (h : step noType canReceive g a = .ok g') :
    Performed noType canReceive g a g' := by
  cases a with
  | newNode n =>
    simp only [step] at h
    split at h
    · cases h
    · rename_i hn
      exact ⟨by simpa using hn, by cases h; rfl⟩
  | newSlot kind s n type =>
    simp only [step] at h
    split at h
    · cases h
    · rename_i hs
      split at h
      · cases h
      · rename_i hn
        exact ⟨by simpa using hs, by simpa [Option.isSome_iff_ne_none] using hn, by cases h; rfl⟩
  | connect s t =>
    simp only [step] at h
    split at h
    · cases h
    · rename_i hst
      split at h
      · cases h
      · exact ⟨hst, by cases h; rfl⟩
  | disconnect s t =>
    simp only [step] at h
    split at h
    · cases h
    · rename_i hst
      split at h
      · cases h
      · exact ⟨hst, by cases h; rfl⟩
  | setId s id =>
    simp only [step] at h
    split at h
    · cases h
    · cases h; rfl
  | setTriggerPosition n value =>
    simp only [step] at h
    split at h
    · cases h
    · cases h; rfl
  | destroy s =>
    simp only [step] at h
    split at h
    · cases h
    · cases h; rfl

end Links

end SlotGraph

end Rubyk
