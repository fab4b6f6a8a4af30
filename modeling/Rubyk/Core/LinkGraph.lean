/-
  Core/LinkGraph.lean --- the links of all slots, in every reachable state.

  A link is stored in the list of both slots, by two one-way calls that each make
  their own type test.  The test is symmetric, so both calls agree.  Sorting keeps
  what a list holds; the destructor empties the list of the dying slot and takes it
  out of the lists of the others.  From this: links are symmetric, nobody is linked
  twice or with itself, no list holds a dead pointer, and an outlet only reaches
  inlets, which makes the cast in `Outlet::send` sound.
-/
import Rubyk.Core.SlotSteps

set_option autoImplicit false

namespace Rubyk.SlotGraph

variable {T : Type} {noType : T → Bool} {canReceive : T → T → Bool}
  {g g' : SlotGraph T} {s t : SlotId} {n : NodeId}

/-- The invariant of the links. -/
structure Linked (g : SlotGraph T) : Prop where
  symm : ∀ s t, t ∈ g.connections s ↔ s ∈ g.connections t
  nodup : ∀ s, (g.connections s).Nodup
  irrefl : ∀ s, s ∉ g.connections s
  alive : ∀ s, ∀ t ∈ g.connections s, (g.slots t).isSome
  /-- `Outlet::send` casts every element to `Inlet` -/
  toInlets : ∀ s, g.kindOf s = some .outlet → ∀ t ∈ g.connections s,
    g.kindOf t = some .inlet

theorem linked_empty : Linked (empty : SlotGraph T) where
  symm _ _ := by simp [connections, empty]
  nodup _ := List.nodup_nil
  irrefl _ := List.not_mem_nil
  alive _ t ht := absurd ht List.not_mem_nil
  toInlets _ _ t ht := absurd ht List.not_mem_nil

namespace Linked

/-- Nothing but what the lists hold matters. -/
theorem of_mem (h : Linked g) (hkind : ∀ s, g'.kindOf s = g.kindOf s)
    (hmem : ∀ s t, t ∈ g'.connections s ↔ t ∈ g.connections s)
    (hnodup : ∀ s, (g'.connections s).Nodup) : Linked g' where
  symm s t := by rw [hmem, hmem, h.symm]
  nodup := hnodup
  irrefl s := by rw [hmem]; exact h.irrefl s
  alive s t ht := by
    rw [← isSome_kindOf, hkind, isSome_kindOf]
    exact h.alive s t ((hmem s t).mp ht)
  toInlets s hs t ht := by
    rw [hkind] at hs ⊢
    exact h.toInlets s hs t ((hmem s t).mp ht)

theorem of_eq (h : Linked g) (hkind : ∀ s, g'.kindOf s = g.kindOf s)
    (hconn : ∀ s, g'.connections s = g.connections s) : Linked g' :=
  h.of_mem hkind (fun s t => by rw [hconn]) fun s => by rw [hconn]; exact h.nodup s

/-- Sorting lists again keeps the links. -/
theorem resorted {p : SlotId → Prop} (h : Linked g) (hr : Resorted g g' p) : Linked g' :=
  h.of_mem hr.kindOf hr.mem fun s => hr.nodup s (h.nodup s)

/-- Links disappear at both ends. -/
theorem shrink (h : Linked g) (hsub : ∀ s, (g'.connections s).Sublist (g.connections s))
    (hsymm : ∀ s t, t ∈ g'.connections s → s ∈ g'.connections t)
    (hkind : ∀ s, ∀ t ∈ g'.connections s, g'.kindOf s = g.kindOf s) : Linked g' where
  symm s t := ⟨hsymm s t, hsymm t s⟩
  nodup s := (h.nodup s).sublist (hsub s)
  irrefl s hs := h.irrefl s ((hsub s).subset hs)
  alive s t ht := by
    rw [← isSome_kindOf, hkind t s (hsymm s t ht), isSome_kindOf]
    exact h.alive s t ((hsub s).subset ht)
  toInlets s hs t ht := by
    rw [hkind s t ht] at hs
    rw [hkind t s (hsymm s t ht)]
    exact h.toInlets s hs t ((hsub s).subset ht)

/-! ## Building objects -/

theorem newNode (h : Linked g) (n : NodeId) : Linked (g.newNode n) :=
  h.of_eq (fun _ => rfl) fun _ => rfl

/-- A key changes, before anything is sorted. -/
theorem modifyId (h : Linked g) (s : SlotId) (id : Int) :
    Linked (g.modifySlot s fun slot => { slot with id := id }) :=
  h.of_eq (fun _ => kindOf_modifySlot fun _ => rfl) fun _ => connections_modifySlot fun _ => rfl

theorem modifyPosition (h : Linked g) (n : NodeId) (value : ℚ) :
    Linked (g.modifyNode n fun node => { node with triggerPosition := value }) :=
  h.of_eq (fun _ => rfl) fun _ => rfl

theorem setId (h : Linked g) (s : SlotId) (id : Int) : Linked (g.setId s id) :=
  (h.modifyId s id).resorted (resorted_sortIncomingConnections _ s)

theorem setTriggerPosition (h : Linked g) (n : NodeId) (value : ℚ) :
    Linked (g.setTriggerPosition n value) :=
  (h.modifyPosition n value).resorted (resorted_sortNode _ n)

theorem newSlot (h : Linked g) (kind : SlotKind) (hs : g.slots s = none)
    (hn : (g.nodes n).isSome) (type : T) : Linked (g.newSlot kind s n type) := by
  have hconn := connections_newSlot hn hs kind type
  have hnotin : ∀ t, ∀ u ∈ g.connections t, u ≠ s := by
    rintro t u hu rfl
    simpa [hs] using h.alive t u hu
  refine h.shrink (fun t => hconn t ▸ List.Sublist.refl _) (fun t u hu => ?_) fun t u hu => ?_
  · rw [hconn] at hu ⊢
    exact (h.symm t u).mp hu
  · rw [hconn] at hu
    exact (samePlace_newSlot hn kind type (hnotin u t ((h.symm t u).mp hu))).kindOf

/-! ## Links -/

theorem connect (h : Linked g) (hst : s ≠ t) :
    Linked (connect noType canReceive g s t).2 := by
  rcases connect_cases g noType canReceive hst with heq | ⟨slot, other, hs, ht, hc, heq⟩
  · rw [heq]
    exact h
  · have hkind : ∀ u, kindOf (SlotGraph.connect noType canReceive g s t).2 u = g.kindOf u := by
      intro u
      rw [heq]
      exact ((SameKeys.modifyConnections g s _).trans
        (SameKeys.modifyConnections _ t _)).kindOf u
    have hconn := fun u => congrArg (connections · u) heq
    simp only [connections_connect hst hs ht] at hconn
    have hmem : ∀ u v, v ∈ (SlotGraph.connect noType canReceive g s t).2.connections u ↔
        v ∈ g.connections u ∨ (u = s ∧ v = t) ∨ (u = t ∧ v = s) := by
      intro u v
      rw [hconn]
      by_cases hus : u = s
      · simp [hus, hst, or_comm]
      · by_cases hut : u = t
        · simp [hut, Ne.symm hst, or_comm]
        · simp [hus, hut]
    have hks : g.kindOf s = some slot.kind := by simp [kindOf, hs]
    have hkt : g.kindOf t = some other.kind := by simp [kindOf, ht]
    refine ⟨fun u v => ?_, fun u => ?_, fun u hu => ?_, fun u v hv => ?_, fun u hu v hv => ?_⟩
    · rw [hmem, hmem, h.symm]
      tauto
    · rw [hconn]
      split
      · exact OrderedList.push_nodup (h.nodup u)
      · split
        · exact OrderedList.push_nodup (h.nodup u)
        · exact h.nodup u
    · rcases (hmem u u).mp hu with hold | ⟨rfl, hself⟩ | ⟨rfl, hself⟩
      · exact h.irrefl u hold
      · exact hst hself
      · exact hst hself.symm
    · rw [← isSome_kindOf, hkind, isSome_kindOf]
      rcases (hmem u v).mp hv with hv | ⟨-, rfl⟩ | ⟨-, rfl⟩
      · exact h.alive u v hv
      · simp [ht]
      · simp [hs]
    · rw [hkind] at hu ⊢
      rcases (hmem u v).mp hv with hv | ⟨rfl, rfl⟩ | ⟨rfl, rfl⟩
      · exact h.toInlets u hu v hv
      · rcases kind_of_compatible hc with hk | hk
        · simp [hks, hk] at hu
        · rw [hkt, hk]
      · rcases kind_of_compatible hc with hk | hk
        · rw [hks, hk]
        · simp [hkt, hk] at hu

/-- `removeConnection` at both ends. -/
theorem disconnect (h : Linked g) (hst : s ≠ t) : Linked (g.disconnect s t) := by
  have hmem : ∀ u v, v ∈ (g.disconnect s t).connections u ↔
      v ∈ g.connections u ∧ ¬ (u = s ∧ v = t) ∧ ¬ (u = t ∧ v = s) := by
    intro u v
    rw [connections_disconnect hst]
    by_cases hus : u = s
    · simp [hus, hst, (h.nodup s).mem_erase_iff, and_comm]
    · by_cases hut : u = t
      · simp [hut, Ne.symm hst, (h.nodup t).mem_erase_iff, and_comm]
      · simp [hus, hut]
  refine h.shrink (disconnect_sublist hst) (fun u v hv => ?_)
    fun u _ _ => sameKeys_disconnect.kindOf u
  rw [hmem] at hv ⊢
  rw [h.symm]
  tauto

theorem destroy_sublist (h : Linked g) (s t : SlotId) :
    ((g.destroy s).connections t).Sublist (g.connections t) := by
  rw [connections_destroy (h.irrefl s) (h.nodup s)]
  split
  · exact List.nil_sublist _
  · split
    · exact List.erase_sublist
    · exact List.Sublist.refl _

/-- The destructor removes the links of the slot, and no others. -/
theorem mem_destroy (h : Linked g) (s t u : SlotId) :
    u ∈ (g.destroy s).connections t ↔ u ∈ g.connections t ∧ t ≠ s ∧ u ≠ s := by
  rw [connections_destroy (h.irrefl s) (h.nodup s)]
  split
  · rename_i hts
    simp [hts]
  · rename_i hts
    split
    · simp [hts, (h.nodup t).mem_erase_iff, and_comm]
    · rename_i hnot
      have hst : s ∉ g.connections t := fun hst => hnot ((h.symm s t).mpr hst)
      simp only [ne_eq, hts, not_false_eq_true, true_and, iff_self_and]
      rintro hu rfl
      exact hst hu

theorem destroy (h : Linked g) (s : SlotId) : Linked (g.destroy s) := by
  refine h.shrink (h.destroy_sublist s) (fun t u hu => ?_) fun t u hu => ?_
  · rw [h.mem_destroy] at hu ⊢
    rw [h.symm]
    tauto
  · exact (samePlace_destroy ((h.mem_destroy s t u).mp hu).2.1).kindOf

/-- Every operation keeps the links in order. -/
theorem step {a : SlotAction T} (h : Linked g)
    (hstep : SlotGraph.step noType canReceive g a = .ok g') : Linked g' := by
  have hdone := performed hstep
  cases a with
  | newNode n =>
    obtain ⟨-, rfl⟩ := hdone
    exact h.newNode n
  | newSlot kind s n type =>
    obtain ⟨hs, hn, rfl⟩ := hdone
    exact h.newSlot kind hs hn type
  | connect s t =>
    obtain ⟨hst, rfl⟩ := hdone
    exact h.connect hst
  | disconnect s t =>
    obtain ⟨hst, rfl⟩ := hdone
    exact h.disconnect hst
  | setId s id =>
    obtain rfl := hdone
    exact h.setId s id
  | setTriggerPosition n value =>
    obtain rfl := hdone
    exact h.setTriggerPosition n value
  | destroy s =>
    obtain rfl := hdone
    exact h.destroy s

/-- The links of a run. -/
theorem of_run {acts : List (SlotAction T)}
    (h : Lib.Run (Lib.StepOf (SlotGraph.step noType canReceive)) empty acts g) : Linked g :=
  h.invariant Linked (fun _ _ _ hlinked hstep => hlinked.step hstep) linked_empty

end Linked

/-! ## Whole runs -/

/-- In every reachable state a link is stored at both ends, once, between two live
slots that are not the same, and what an outlet is linked with is an inlet. -/
theorem links_consistent {acts : List (SlotAction T)}
    (h : Lib.Run (Lib.StepOf (step noType canReceive)) empty acts g) :
    (∀ s t, t ∈ g.connections s ↔ s ∈ g.connections t) ∧
    (∀ s, (g.connections s).Nodup ∧ s ∉ g.connections s) ∧
    (∀ s, ∀ t ∈ g.connections s, (g.slots t).isSome) ∧
    (∀ s, g.kindOf s = some .outlet → ∀ t ∈ g.connections s, g.kindOf t = some .inlet) :=
  have hlinked := Linked.of_run h
  ⟨hlinked.symm, fun s => ⟨hlinked.nodup s, hlinked.irrefl s⟩, hlinked.alive,
    hlinked.toInlets⟩

/-- Two nodes, an outlet linked with two inlets, one of which dies. -/
def buildAndDestroy : List (SlotAction Unit) :=
  [.newNode 0, .newNode 1, .newSlot .outlet 10 0 (), .newSlot .inlet 11 1 (),
    .newSlot .inlet 12 1 (), .connect 10 11, .connect 12 10, .setId 12 5,
    .setTriggerPosition 0 7, .destroy 11]

theorem links_consistent_destroyed : ∃ g : SlotGraph Unit,
    Lib.Run (Lib.StepOf (step (fun _ => false) fun _ _ => true)) empty buildAndDestroy g ∧
    g.connections 10 = [12] ∧
    (∀ s t, t ∈ g.connections s ↔ s ∈ g.connections t) ∧
    (∀ s, (g.connections s).Nodup ∧ s ∉ g.connections s) ∧
    (∀ s, ∀ t ∈ g.connections s, (g.slots t).isSome) ∧
    (∀ s, g.kindOf s = some .outlet → ∀ t ∈ g.connections s, g.kindOf t = some .inlet) := by
  have hrun : Lib.Run (Lib.StepOf (step (fun _ => false) fun _ _ => true)) empty
      buildAndDestroy _ := Lib.Run.of_foldlM rfl
  exact ⟨_, hrun, by decide, links_consistent hrun⟩

end Rubyk.SlotGraph
