/-
  Core/LinkAlgebra.lean --- the algebra of `Slot::connect` and `Slot::disconnect`.

  `connect` asks the type test at one end and writes both lists; the test of the
  other end has the same answer, and the two lists are written independently.  So
  the two ends are interchangeable, a second `connect` finds both pointers where they
  are, and `disconnect` takes out what `connect` put in.
-/
import Rubyk.Core.LinkGraph

set_option autoImplicit false

namespace Rubyk.SlotGraph

variable {T : Type} {g : SlotGraph T} {s t : SlotId} {slot other : Slot T}
  {noType : T → Bool} {canReceive : T → T → Bool}

/-! ## Writing to lists -/

theorem modifyConnections_comm (hst : s ≠ t) (f f' : List SlotId → List SlotId) :
    (g.modifyConnections s f).modifyConnections t f' =
      (g.modifyConnections t f').modifyConnections s f := by
  simp [modifyConnections, modifySlot, hst, hst.symm, Function.update_comm hst]

theorem modifyConnections_twice (f f' : List SlotId → List SlotId) :
    (g.modifyConnections s f).modifyConnections s f' =
      g.modifyConnections s fun l => f' (f l) := by
  simp [modifyConnections, modifySlot, Function.comp_def]

/-- Writing what the list holds already changes nothing. -/
theorem modifyConnections_eq_self {f : List SlotId → List SlotId}
    (h : f (g.connections s) = g.connections s) : g.modifyConnections s f = g := by
  have hslot : (g.slots s).map (fun slot => { slot with connections := f slot.connections }) =
      g.slots s := by
    cases hs : g.slots s with
    | none => rfl
    | some slot =>
      rw [connections_of_slots hs] at h
      simp [h]
  simp [modifyConnections, modifySlot, hslot]

/-! ## Both halves of a link -/

/-- `connect` at two live slots: the type test decides, and both lists are written. -/
theorem connect_eq (hst : s ≠ t) (hs : g.slots s = some slot) (ht : g.slots t = some other) :
    connect noType canReceive g s t =
      if compatible noType canReceive slot other then
        (true, (g.modifyConnections s (OrderedList.push g.ge t)).modifyConnections t
          (OrderedList.push g.ge s))
      else (false, g) := by
  by_cases hc : compatible noType canReceive slot other = true
  · have hge : (g.modifyConnections s (OrderedList.push g.ge t)).ge = g.ge :=
      (SameKeys.modifyConnections g s _).ge
    have hback : compatible noType canReceive other
        { slot with connections := OrderedList.push g.ge t slot.connections } = true :=
      (compatible_comm slot other).symm.trans hc
    have hother : (g.modifyConnections s (OrderedList.push g.ge t)).slots t = some other := by
      simp [modifyConnections, hst.symm, ht]
    have hslot : (g.modifyConnections s (OrderedList.push g.ge t)).slots s =
        some { slot with connections := OrderedList.push g.ge t slot.connections } := by
      simp [modifyConnections, hs]
    simp only [connect, addConnection, hs, ht, hc, if_true, hother, hslot, hback, hge]
  · simp [connect, addConnection, hs, ht, hc]

/-- A link can be made from either end. -/
theorem connect_comm (hst : s ≠ t) (hs : g.slots s = some slot) (ht : g.slots t = some other) :
    connect noType canReceive g s t = connect noType canReceive g t s := by
  rw [connect_eq hst hs ht, connect_eq hst.symm ht hs, compatible_comm slot other,
    modifyConnections_comm hst]

/-- A link that is there is made again without effect. -/
theorem connect_of_linked (hst : s ≠ t) (hs : g.slots s = some slot)
    (ht : g.slots t = some other) (hmem : t ∈ g.connections s) (hmem' : s ∈ g.connections t) :
    (connect noType canReceive g s t).2 = g := by
  have hfirst : g.modifyConnections s (OrderedList.push g.ge t) = g :=
    modifyConnections_eq_self (OrderedList.push_of_mem hmem)
  have hsecond : g.modifyConnections t (OrderedList.push g.ge s) = g :=
    modifyConnections_eq_self (OrderedList.push_of_mem hmem')
  rw [connect_eq hst hs ht]
  split
  · rw [hfirst, hsecond]
  · rfl

theorem connect_connect (hst : s ≠ t) (hs : g.slots s = some slot)
    (ht : g.slots t = some other) :
    connect noType canReceive (connect noType canReceive g s t).2 s t =
      connect noType canReceive g s t := by
  have hkeys := sameKeys_connect noType canReceive g s t
  obtain ⟨slot', hs', hkey⟩ := hkeys.of_slots hs
  obtain ⟨other', ht', hkey'⟩ := hkeys.of_slots ht
  have hsame : compatible noType canReceive slot' other' =
      compatible noType canReceive slot other := by
    simp only [compatible, Slot.type_of_key hkey, Slot.type_of_key hkey', Slot.kind_of_key hkey,
      Slot.kind_of_key hkey']
  by_cases hc : compatible noType canReceive slot other = true
  · have hconn := connections_connect hst hs ht
    have heq : (connect noType canReceive g s t).2 = _ :=
      congrArg Prod.snd ((connect_eq hst hs ht).trans (if_pos hc))
    have hmem : t ∈ (connect noType canReceive g s t).2.connections s := by
      rw [heq, hconn, if_pos rfl]
      simp
    have hmem' : s ∈ (connect noType canReceive g s t).2.connections t := by
      rw [heq, hconn, if_neg hst.symm, if_pos rfl]
      simp
    have hgraph : (connect noType canReceive (connect noType canReceive g s t).2 s t).2 = _ :=
      connect_of_linked hst hs' ht' hmem hmem'
    have hanswer : (connect noType canReceive (connect noType canReceive g s t).2 s t).1 =
        (connect noType canReceive g s t).1 := by
      rw [connect_eq hst hs' ht', connect_eq hst hs ht, hsame, if_pos hc, if_pos hc]
    exact Prod.ext hanswer hgraph
  · have hrefused : connect noType canReceive g s t = (false, g) := by
      rw [connect_eq hst hs ht, if_neg hc]
    rw [hrefused]
    exact hrefused

theorem disconnect_comm (hst : s ≠ t) : g.disconnect s t = g.disconnect t s := by
  unfold disconnect removeConnection
  exact modifyConnections_comm hst _ _

/-- `disconnect` takes out what `connect` put in. -/
theorem disconnect_connect (hst : s ≠ t) (hs : g.slots s = some slot)
    (ht : g.slots t = some other) (hmem : t ∉ g.connections s) (hmem' : s ∉ g.connections t) :
    (connect noType canReceive g s t).2.disconnect s t = g := by
  rw [connect_eq hst hs ht]
  split
  · have hfirst : g.modifyConnections s
        (fun l => (OrderedList.remove t (OrderedList.push g.ge t l)).2) = g := by
      refine modifyConnections_eq_self ?_
      rw [OrderedList.remove_snd, OrderedList.push_of_not_mem hmem,
        OrderedList.insertContainer_erase hmem]
    have hsecond : g.modifyConnections t
        (fun l => (OrderedList.remove s (OrderedList.push g.ge s l)).2) = g := by
      refine modifyConnections_eq_self ?_
      rw [OrderedList.remove_snd, OrderedList.push_of_not_mem hmem',
        OrderedList.insertContainer_erase hmem']
    calc ((g.modifyConnections s (OrderedList.push g.ge t)).modifyConnections t
            (OrderedList.push g.ge s)).disconnect s t
        = ((g.modifyConnections s (OrderedList.push g.ge t)).removeConnection s
            t).modifyConnections t
              fun l => (OrderedList.remove s (OrderedList.push g.ge s l)).2 := by
          unfold disconnect removeConnection
          rw [modifyConnections_comm hst.symm, modifyConnections_twice]
      _ = g.modifyConnections t
            fun l => (OrderedList.remove s (OrderedList.push g.ge s l)).2 := by
          unfold removeConnection
          rw [modifyConnections_twice, hfirst]
      _ = g := hsecond
  · have hfirst : g.removeConnection s t = g :=
      modifyConnections_eq_self (by rw [OrderedList.remove_snd, List.erase_of_not_mem hmem])
    have hsecond : g.removeConnection t s = g :=
      modifyConnections_eq_self (by rw [OrderedList.remove_snd, List.erase_of_not_mem hmem'])
    rw [disconnect, hfirst, hsecond]

/-! ## Whole runs -/

variable {o i : SlotId}

theorem ne_of_kinds (ho : g.kindOf o = some .outlet) (hi : g.kindOf i = some .inlet) :
    o ≠ i := by
  rintro rfl
  rw [ho] at hi
  exact absurd hi (by decide)

theorem exists_slot_of_kindOf {kind : SlotKind} (h : g.kindOf s = some kind) :
    ∃ slot, g.slots s = some slot :=
  Option.isSome_iff_exists.mp (by rw [← isSome_kindOf, h]; rfl)

/-- In every reachable graph, an outlet and an inlet can be linked from either end with the
same answer and the same lists, linking them again changes nothing, disconnecting them from
either end undoes a new link, and a refused link changes no list. -/
theorem link_algebra {acts : List (SlotAction T)}
    (h : Lib.Run (Lib.StepOf (step noType canReceive)) empty acts g)
    (ho : g.kindOf o = some .outlet) (hi : g.kindOf i = some .inlet) :
    connect noType canReceive g o i = connect noType canReceive g i o ∧
    connect noType canReceive (connect noType canReceive g o i).2 o i =
      connect noType canReceive g o i ∧
    connect noType canReceive (connect noType canReceive g o i).2 i o =
      connect noType canReceive g o i ∧
    (i ∉ g.connections o →
      (connect noType canReceive g o i).2.disconnect o i = g ∧
      (connect noType canReceive g o i).2.disconnect i o = g) ∧
    ((connect noType canReceive g o i).1 = false →
      (connect noType canReceive g o i).2 = g) := by
  have hlinked := Linked.of_run h
  have hne : o ≠ i := ne_of_kinds ho hi
  obtain ⟨slot, hslot⟩ := exists_slot_of_kindOf ho
  obtain ⟨other, hother⟩ := exists_slot_of_kindOf hi
  have hkeys := sameKeys_connect noType canReceive g o i
  obtain ⟨slot', hslot', -⟩ := hkeys.of_slots hslot
  obtain ⟨other', hother', -⟩ := hkeys.of_slots hother
  have htwice : connect noType canReceive (connect noType canReceive g o i).2 o i =
      connect noType canReceive g o i := connect_connect hne hslot hother
  refine ⟨connect_comm hne hslot hother, htwice, ?_, fun hmem => ?_, fun hrefused => ?_⟩
  · rw [← connect_comm hne hslot' hother']
    exact htwice
  · have hmem' : o ∉ g.connections i := fun hoi => hmem ((hlinked.symm o i).mpr hoi)
    have hundo : (connect noType canReceive g o i).2.disconnect o i = g :=
      disconnect_connect hne hslot hother hmem hmem'
    exact ⟨hundo, (disconnect_comm hne).symm.trans hundo⟩
  · rw [connect_eq hne hslot hother] at hrefused ⊢
    split
    · rename_i hc
      rw [if_pos hc] at hrefused
      exact absurd hrefused (by simp)
    · rfl

/-- The outlet that is left of `buildAndDestroy`, and an inlet it is not linked with. -/
theorem link_algebra_destroyed : ∃ g : SlotGraph Unit,
    Lib.Run (Lib.StepOf (step (fun _ => false) fun _ _ => true)) empty
      (buildAndDestroy ++ [.newSlot .inlet 13 0 ()]) g ∧
    g.kindOf 10 = some .outlet ∧ g.kindOf 13 = some .inlet ∧ 13 ∉ g.connections 10 ∧
    connect (fun _ => false) (fun _ _ => true) g 10 13 =
      connect (fun _ => false) (fun _ _ => true) g 13 10 ∧
    (connect (fun _ => false) (fun _ _ => true) g 10 13).2.connections 10 = [13, 12] ∧
    (connect (fun _ => false) (fun _ _ => true) g 10 13).2.disconnect 10 13 = g := by
  have hrun : Lib.Run (Lib.StepOf (step (fun _ => false) fun _ _ => true)) empty
      (buildAndDestroy ++ [.newSlot .inlet 13 0 ()]) _ := Lib.Run.of_foldlM rfl
  obtain ⟨hcomm, -, -, hundo, -⟩ := link_algebra (o := 10) (i := 13) hrun (by decide) (by decide)
  exact ⟨_, hrun, by decide, by decide, by decide, hcomm, by decide, (hundo (by decide)).1⟩

end Rubyk.SlotGraph
