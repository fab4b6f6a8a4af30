/-
  Core/SendingOrder.lean --- the order in which an outlet sends to its inlets.

  The lists are ordered by keys that live in the elements: the id of the inlet and
  the trigger position of its node.  `set_id` and `set_trigger_position` change keys
  of elements of lists they do not own.  They find these lists through the reverse
  links: a slot is in the list of an outlet exactly when the outlet is in its list,
  and a node knows all its inlets.  So the lists that are sorted again are the lists
  that mention a changed key.

  The comparison of slots is not transitive when two nodes share a trigger position,
  hence the assumption that they never do.
-/
import Rubyk.Core.LinkGraph

set_option autoImplicit false

namespace Rubyk.SlotGraph

variable {T : Type} {noType : T → Bool} {canReceive : T → T → Bool}
  {g g' : SlotGraph T} {s t : SlotId} {n : NodeId}

/-- Every slot is in the vector of its node. -/
def Registered (g : SlotGraph T) : Prop :=
  ∀ s slot, g.slots s = some slot →
    ∃ node, g.nodes slot.node = some node ∧ s ∈ node.slotsOf slot.kind

/-- The invariant of the sending order. -/
structure Ordered (g : SlotGraph T) : Prop extends Linked g where
  registered : Registered g
  ordered : ∀ s, g.kindOf s = some .outlet → (g.connections s).Pairwise (Before g)

theorem ordered_empty : Ordered (empty : SlotGraph T) where
  toLinked := linked_empty
  registered s slot h := by simp [empty] at h
  ordered s h := by simp [kindOf, empty] at h

namespace Ordered

theorem comparable (h : Ordered g) (hd : DistinctPositions g) : Comparable g where
  live := h.alive
  nodes := fun s slot hslot => by
    obtain ⟨node, hnode, -⟩ := h.registered s slot hslot
    simp [hnode]
  distinct := hd

/-- The lists are taken over, and their elements keep their places. -/
theorem ordered_of_sublist (h : Ordered g)
    (hsub : ∀ s, (g'.connections s).Sublist (g.connections s))
    (hkind : ∀ s, ∀ t ∈ g'.connections s, g'.kindOf s = g.kindOf s)
    (hplace : ∀ s, ∀ t ∈ g'.connections s, SamePlace g g' t) :
    ∀ s, g'.kindOf s = some .outlet → (g'.connections s).Pairwise (Before g') := by
  intro s hs
  have hbefore : (g'.connections s).Pairwise (Before g) := by
    cases hnil : g'.connections s with
    | nil => exact List.Pairwise.nil
    | cons t rest =>
      have ht : t ∈ g'.connections s := by simp [hnil]
      rw [← hnil]
      exact (h.ordered s (hkind s t ht ▸ hs)).sublist (hsub s)
  refine hbefore.imp_of_mem fun ht hu htu => ?_
  exact htu.samePlace (hplace s _ ht) (hplace s _ hu)

/-! ## Sorting lists again -/

/-- After a key changed, it is enough to sort the lists of the outlets that are
linked with a slot whose place changed. -/
theorem resorted {p : SlotId → Prop} {g₁ : SlotGraph T} (h : Ordered g)
    (hlinked : Linked g₁) (hregistered : Registered g₁) (hd : DistinctPositions g₁)
    (hconn : ∀ s, g₁.connections s = g.connections s)
    (hkind : ∀ s, g₁.kindOf s = g.kindOf s) (hr : Resorted g₁ g' p)
    (hplace : ∀ s, g.kindOf s = some .outlet → ¬ p s → ∀ t ∈ g.connections s,
      SamePlace g g₁ t) : Ordered g' where
  toLinked := hlinked.resorted hr
  registered := by
    intro s slot' hslot'
    obtain ⟨slot, hslot, hkey⟩ := hr.symm.of_slots hslot'
    rw [hr.toSameKeys.nodes, ← Slot.node_of_key hkey, ← Slot.kind_of_key hkey]
    exact hregistered s slot hslot
  ordered := by
    intro s hs
    rw [hr.kindOf, hkind] at hs
    have hcomparable : Comparable g₁ := by
      refine ⟨hlinked.alive, fun t slot hslot => ?_, hd⟩
      obtain ⟨node, hnode, -⟩ := hregistered t slot hslot
      simp [hnode]
    have hbefore : (g'.connections s).Pairwise (Before g₁) := by
      by_cases hp : p s
      · exact hr.ordered hcomparable s hp
      · rw [hr.untouched s hp, hconn]
        refine (h.ordered s hs).imp_of_mem fun ht hu htu => ?_
        exact htu.samePlace (hplace s hs hp _ ht) (hplace s hs hp _ hu)
    exact hbefore.imp fun htu => hr.before.mpr htu

/-- The lists that mention a slot are those of the slots in its own list. -/
theorem setId (h : Ordered g) (hd : DistinctPositions g) (s : SlotId) (id : Int) :
    Ordered (g.setId s id) := by
  have hconn : ∀ t, (g.modifySlot s fun slot => { slot with id := id }).connections t =
      g.connections t := fun t => connections_modifySlot fun _ => rfl
  refine h.resorted (h.toLinked.modifyId s id) ?_ hd hconn
    (fun _ => kindOf_modifySlot fun _ => rfl) (resorted_sortIncomingConnections _ s) ?_
  · intro t slot' hslot'
    by_cases hts : t = s
    · subst hts
      obtain ⟨slot, hslot, rfl⟩ := Option.map_eq_some_iff.mp (by simpa using hslot')
      exact h.registered t slot hslot
    · exact h.registered t slot' (by simpa [hts] using hslot')
  · intro o _ hnot t ht
    have hts : t ≠ s := by
      rintro rfl
      rw [hconn] at hnot
      exact hnot ((h.symm o t).mp ht)
    exact ⟨by simp [hts], fun _ _ => rfl⟩

/-- The lists that mention an inlet of the node are those of the slots in the lists
of the inlets in its vector. -/
theorem setTriggerPosition (h : Ordered g) (n : NodeId) (value : ℚ)
    (hd : DistinctPositions (g.setTriggerPosition n value)) :
    Ordered (g.setTriggerPosition n value) := by
  have hr := resorted_sortNode
    (g.modifyNode n fun node => { node with triggerPosition := value }) n
  have hd' : DistinctPositions
      (g.modifyNode n fun node => { node with triggerPosition := value }) := by
    unfold DistinctPositions
    rw [← hr.toSameKeys.nodes]
    exact hd
  refine h.resorted (h.toLinked.modifyPosition n value) ?_ hd' (fun _ => rfl) (fun _ => rfl)
    hr ?_
  · intro t slot hslot
    obtain ⟨node, hnode, hmem⟩ := h.registered t slot hslot
    by_cases hn : slot.node = n
    · subst hn
      refine ⟨{ node with triggerPosition := value }, by simp [hnode], ?_⟩
      cases hk : slot.kind <;> simpa [hk, Node.slotsOf] using hmem
    · exact ⟨node, by simp [hn, hnode], hmem⟩
  · intro o ho hnot t ht
    refine ⟨rfl, fun slot hslot => ?_⟩
    have hn : slot.node ≠ n := by
      rintro rfl
      obtain ⟨node, hnode, hmem⟩ := h.registered t slot hslot
      have hinlet : slot.kind = .inlet := by simpa [kindOf, hslot] using h.toInlets o ho t ht
      refine hnot ⟨{ node with triggerPosition := value }, by simp [hnode], t, ?_, ?_⟩
      · simpa [hinlet, Node.slotsOf] using hmem
      · exact (h.symm o t).mp ht
    simp [triggerPosition, hn]

/-! ## Building objects -/

theorem newNode (h : Ordered g) (hn : g.nodes n = none) : Ordered (g.newNode n) := by
  have hother : ∀ t slot, g.slots t = some slot → slot.node ≠ n := by
    rintro t slot hslot rfl
    obtain ⟨node, hnode, -⟩ := h.registered t slot hslot
    simp [hn] at hnode
  have hplace : ∀ t, SamePlace g (g.newNode n) t := by
    refine fun t => ⟨rfl, fun slot hslot => ?_⟩
    simp [triggerPosition, SlotGraph.newNode, hother t slot hslot]
  refine ⟨h.toLinked.newNode n, fun t slot hslot => ?_,
    h.ordered_of_sublist (fun _ => List.Sublist.refl _) (fun _ _ _ => rfl) fun _ t _ => hplace t⟩
  obtain ⟨node, hnode, hmem⟩ := h.registered t slot hslot
  refine ⟨node, ?_, hmem⟩
  simpa [SlotGraph.newNode, hother t slot hslot] using hnode

theorem newSlot (h : Ordered g) (kind : SlotKind) (hs : g.slots s = none)
    (hn : (g.nodes n).isSome) (type : T) : Ordered (g.newSlot kind s n type) := by
  have hconn := connections_newSlot hn hs kind type
  have hnotin : ∀ t, ∀ u ∈ g.connections t, u ≠ s := by
    rintro t u hu rfl
    simpa [hs] using h.alive t u hu
  refine ⟨h.toLinked.newSlot kind hs hn type, fun t slot hslot => ?_,
    h.ordered_of_sublist (fun t => hconn t ▸ List.Sublist.refl _) (fun t u hu => ?_)
      fun t u hu => samePlace_newSlot hn kind type (hnotin t u (hconn t ▸ hu))⟩
  · obtain ⟨node, hnode⟩ := Option.isSome_iff_exists.mp hn
    rw [slots_newSlot hnode] at hslot
    by_cases hts : t = s
    · rw [if_pos hts, Option.some.injEq] at hslot
      subst hslot
      exact ⟨_, by rw [nodes_newSlot hnode, if_pos rfl], by simp [hts]⟩
    · rw [if_neg hts] at hslot
      obtain ⟨own, hown, hmem⟩ := h.registered t slot hslot
      by_cases hm : slot.node = n
      · obtain rfl : node = own := by simpa [hm, hnode] using hown
        refine ⟨_, by rw [nodes_newSlot hnode, if_pos hm], ?_⟩
        by_cases hk : slot.kind = kind
        · simp [hk ▸ hmem, hk]
        · simp [hk, hmem]
      · exact ⟨own, by rw [nodes_newSlot hnode, if_neg hm, hown], hmem⟩
  · rw [hconn] at hu
    exact (samePlace_newSlot hn kind type (hnotin u t ((h.symm t u).mp hu))).kindOf

/-! ## Links -/

theorem registered_of_sameKeys (h : Ordered g) (hsame : SameKeys g g') : Registered g' := by
  intro t slot' hslot'
  obtain ⟨slot, hslot, hkey⟩ := hsame.symm.of_slots hslot'
  rw [hsame.nodes, ← Slot.node_of_key hkey, ← Slot.kind_of_key hkey]
  exact h.registered t slot hslot

theorem connect (h : Ordered g) (hd : DistinctPositions g) (hst : s ≠ t) :
    Ordered (SlotGraph.connect noType canReceive g s t).2 := by
  have hlinked : Linked (SlotGraph.connect noType canReceive g s t).2 := h.toLinked.connect hst
  have hpush : ∀ u v, g.kindOf u = some .outlet →
      (OrderedList.push g.ge v (g.connections u)).Pairwise (Before g) := by
    intro u v hu
    by_cases hv : v ∈ g.connections u
    · rw [OrderedList.push_of_mem hv]
      exact h.ordered u hu
    · rw [OrderedList.push_of_not_mem hv]
      refine OrderedList.insertContainer_pairwise (fun w _ => before_of_ge) ?_ (h.ordered u hu)
      intro w hw hge
      have hvw : Before g v w := before_of_not_ge hge
      exact ⟨hvw, fun z _ hwz => (h.comparable hd).before_trans (h.alive u w hw) hvw hwz⟩
  rcases connect_cases g noType canReceive hst with heq | ⟨slot, other, hs, ht, hc, heq⟩
  · rw [heq]
    exact h
  · have hsame : SameKeys g (SlotGraph.connect noType canReceive g s t).2 := by
      rw [heq]
      exact (SameKeys.modifyConnections g s _).trans (SameKeys.modifyConnections _ t _)
    refine ⟨hlinked, h.registered_of_sameKeys hsame, fun u hu => ?_⟩
    rw [hsame.kindOf] at hu
    have hbefore : ((SlotGraph.connect noType canReceive g s t).2.connections u).Pairwise
        (Before g) := by
      rw [heq, connections_connect hst hs ht]
      split
      · exact hpush u t hu
      · split
        · exact hpush u s hu
        · exact h.ordered u hu
    exact hbefore.imp fun hb => hsame.before.mpr hb

theorem disconnect (h : Ordered g) (hst : s ≠ t) : Ordered (g.disconnect s t) := by
  refine ⟨h.toLinked.disconnect hst, h.registered_of_sameKeys sameKeys_disconnect,
    h.ordered_of_sublist (disconnect_sublist hst)
      (fun u _ _ => sameKeys_disconnect.kindOf u) fun _ u _ => sameKeys_disconnect.samePlace u⟩

theorem destroy (h : Ordered g) (s : SlotId) : Ordered (g.destroy s) := by
  refine ⟨h.toLinked.destroy s, fun t slot' hslot' => ?_,
    h.ordered_of_sublist (h.toLinked.destroy_sublist s) (fun t u hu => ?_) fun t u hu => ?_⟩
  · cases hs : g.slots s with
    | none =>
      simp only [SlotGraph.destroy, hs] at hslot' ⊢
      exact h.registered t slot' hslot'
    | some dying =>
      have hts : t ≠ s := by
        rintro rfl
        simp [SlotGraph.destroy, hs] at hslot'
      obtain ⟨slot, hslot, hkey, -⟩ := (samePlace_destroy hts).of_slots hslot'
      obtain ⟨node, hnode, hmem⟩ := h.registered t slot hslot
      rw [Slot.node_of_key hkey, Slot.kind_of_key hkey, nodes_destroy hs, unregisterIn,
        nodes_modifyNode, hnode]
      split
      · refine ⟨_, rfl, ?_⟩
        rw [slotsOf_setSlotsOf]
        split
        · rename_i hk
          exact (List.mem_erase_of_ne hts).mpr (hk ▸ hmem)
        · exact hmem
      · exact ⟨node, rfl, hmem⟩
  · exact (samePlace_destroy ((h.toLinked.mem_destroy s t u).mp hu).2.1).kindOf
  · exact samePlace_destroy ((h.toLinked.mem_destroy s t u).mp hu).2.2

/-- Every operation keeps the sending order, as long as positions are distinct. -/
theorem step {a : SlotAction T} (h : Ordered g) (hd : DistinctPositions g)
    (hd' : DistinctPositions g') (hstep : SlotGraph.step noType canReceive g a = .ok g') :
    Ordered g' := by
  have hdone := performed hstep
  cases a with
  | newNode n =>
    obtain ⟨hn, rfl⟩ := hdone
    exact h.newNode hn
  | newSlot kind s n type =>
    obtain ⟨hs, hn, rfl⟩ := hdone
    exact h.newSlot kind hs hn type
  | connect s t =>
    obtain ⟨hst, rfl⟩ := hdone
    exact h.connect hd hst
  | disconnect s t =>
    obtain ⟨hst, rfl⟩ := hdone
    exact h.disconnect hst
  | setId s id =>
    obtain rfl := hdone
    exact h.setId hd s id
  | setTriggerPosition n value =>
    obtain rfl := hdone
    exact h.setTriggerPosition n value hd'
  | destroy s =>
    obtain rfl := hdone
    exact h.destroy s

end Ordered

/-! ## Whole runs -/

/-- In every state of a run in which distinct nodes always have distinct trigger
positions, an outlet sends to the node with the greater position first, and to the
greater id first within a node. -/
theorem sending_order {acts : List (SlotAction T)}
    (h : Lib.Run (Lib.StepOf (step noType canReceive)) empty acts g)
    (hd : Lib.Throughout (Lib.StepOf (step noType canReceive)) empty acts DistinctPositions)
    (s : SlotId) (hs : g.kindOf s = some .outlet) : (g.send s).Pairwise (Before g) := by
  have hordered : Ordered g := by
    refine h.invariant_along hd ordered_empty ?_
    intro g a g' hg hdist hdist' hstep
    exact hg.step hdist hdist' hstep
  exact hordered.ordered s hs

/-! ## Default positions -/

/-- The positions of the nodes. -/
def positions (g : SlotGraph T) (n : NodeId) : Option ℚ :=
  (g.nodes n).map Node.triggerPosition

/-- No two positions are the same and the counter has passed all of them. -/
structure Numbered (g : SlotGraph T) : Prop where
  distinct : ∀ n m p, g.positions n = some p → g.positions m = some p → n = m
  passed : ∀ n p, g.positions n = some p → p ≤ g.sIdCounter

theorem Numbered.distinctPositions (h : Numbered g) : DistinctPositions g := by
  intro n m node other hn hm heq
  exact h.distinct n m node.triggerPosition (by simp [positions, hn])
    (by simp [positions, hm, heq])

theorem Numbered.of_same (h : Numbered g) (hpos : g'.positions = g.positions)
    (hcounter : g'.sIdCounter = g.sIdCounter) : Numbered g' :=
  ⟨hpos ▸ h.distinct, hcounter ▸ hpos ▸ h.passed⟩

theorem Numbered.sameKeys (h : Numbered g) (hsame : SameKeys g g') : Numbered g' :=
  h.of_same (by unfold positions; rw [hsame.nodes]) hsame.counter

theorem Numbered.newNode (h : Numbered g) (n : NodeId) : Numbered (g.newNode n) := by
  have hpos : ∀ m, (g.newNode n).positions m =
      if m = n then some ((g.sIdCounter + 1 : Nat) : ℚ) else g.positions m := by
    intro m
    by_cases hmn : m = n
    · subst hmn
      simp [positions, SlotGraph.newNode]
    · simp [positions, SlotGraph.newNode, hmn]
  have hlt : ∀ m p, g.positions m = some p → p < ((g.sIdCounter + 1 : Nat) : ℚ) := by
    intro m p hp
    have hle := h.passed m p hp
    push_cast
    linarith
  refine ⟨fun m k p hm hk => ?_, fun m p hm => ?_⟩
  · rw [hpos] at hm hk
    split at hm
    · rename_i hmn
      split at hk
      · rename_i hkn
        rw [hmn, hkn]
      · obtain rfl := Option.some.inj hm
        exact absurd (hlt k _ hk) (lt_irrefl _)
    · split at hk
      · obtain rfl := Option.some.inj hk
        exact absurd (hlt m _ hm) (lt_irrefl _)
      · exact h.distinct m k p hm hk
  · rw [hpos] at hm
    split at hm
    · obtain rfl := Option.some.inj hm
      exact le_refl _
    · exact (hlt m p hm).le

/-- Nothing but `set_trigger_position` can make two positions equal. -/
theorem Numbered.step {a : SlotAction T} (h : Numbered g)
    (ha : ∀ n value, a ≠ .setTriggerPosition n value)
    (hstep : SlotGraph.step noType canReceive g a = .ok g') : Numbered g' := by
  have hdone := performed hstep
  cases a with
  | newNode n =>
    obtain ⟨-, rfl⟩ := hdone
    exact h.newNode n
  | newSlot kind s n type =>
    obtain ⟨-, hn, rfl⟩ := hdone
    obtain ⟨node, hnode⟩ := Option.isSome_iff_exists.mp hn
    refine h.of_same (funext fun m => ?_) (by rw [newSlot_eq hnode])
    unfold positions
    rw [nodes_newSlot hnode]
    split
    · rename_i hmn
      simp [hmn, hnode]
    · rfl
  | connect s t =>
    obtain ⟨hst, rfl⟩ := hdone
    rcases connect_cases g noType canReceive hst with heq | ⟨_, _, _, _, _, heq⟩
    · rwa [heq]
    · rw [heq]
      exact h.sameKeys ((SameKeys.modifyConnections g s _).trans
        (SameKeys.modifyConnections _ t _))
  | disconnect s t =>
    obtain ⟨-, rfl⟩ := hdone
    exact h.sameKeys sameKeys_disconnect
  | setId s id =>
    obtain rfl := hdone
    have hkeyed : Numbered (g.modifySlot s fun slot => { slot with id := id }) :=
      h.of_same rfl rfl
    exact hkeyed.sameKeys (resorted_sortIncomingConnections _ s).toSameKeys
  | setTriggerPosition n value => exact absurd rfl (ha n value)
  | destroy s =>
    obtain rfl := hdone
    cases hs : g.slots s with
    | none => simpa [SlotGraph.destroy, hs] using h
    | some slot =>
      refine h.of_same (funext fun m => ?_) ?_
      · unfold positions
        rw [nodes_destroy hs, unregisterIn, nodes_modifyNode]
        split
        · cases hm : g.nodes m <;> simp
        · rfl
      · simp only [SlotGraph.destroy, hs]
        exact (sameKeys_removeFromConnections s slot.connections _).counter

/-- Runs that leave the positions as the constructor of `Node` sets them. -/
theorem distinctPositions_of_defaults {acts : List (SlotAction T)}
    (hacts : ∀ n value, .setTriggerPosition n value ∉ acts) :
    Lib.Throughout (Lib.StepOf (step noType canReceive)) empty acts DistinctPositions := by
  intro bs g hle hrun
  suffices hnumbered : Numbered g from hnumbered.distinctPositions
  have hbs : ∀ n value, .setTriggerPosition n value ∉ bs :=
    fun n value hmem => hacts n value (hle.subset hmem)
  clear hle hacts
  induction hrun with
  | nil => exact ⟨by simp [positions, empty], by simp [positions, empty]⟩
  | @snoc cs g a g' _ hlast ih =>
    refine Numbered.step (ih fun n value hmem => hbs n value (by simp [hmem])) ?_ hlast
    rintro n value rfl
    exact hbs n value (by simp)

/-- A node with an outlet, linked with two inlets of one node and an inlet of a
younger one, two of which then change places. -/
def linkAndSwap : List (SlotAction Unit) :=
  [.newNode 0, .newNode 1, .newNode 2, .newSlot .outlet 10 0 (), .newSlot .inlet 11 1 (),
    .newSlot .inlet 12 1 (), .newSlot .inlet 13 2 (), .connect 10 11, .connect 10 12,
    .connect 13 10, .setId 11 5]

theorem sending_order_swapped : ∃ g : SlotGraph Unit,
    Lib.Run (Lib.StepOf (step (fun _ => false) fun _ _ => true)) empty linkAndSwap g ∧
    g.send 10 = [13, 11, 12] ∧ (g.send 10).Pairwise (Before g) := by
  have hrun : Lib.Run (Lib.StepOf (step (fun _ => false) fun _ _ => true)) empty
      linkAndSwap _ := Lib.Run.of_foldlM rfl
  have hdefaults : ∀ n value, .setTriggerPosition n value ∉ linkAndSwap := by
    simp [linkAndSwap]
  exact ⟨_, hrun, by decide,
    sending_order hrun (distinctPositions_of_defaults hdefaults) 10 (by decide)⟩

end Rubyk.SlotGraph
