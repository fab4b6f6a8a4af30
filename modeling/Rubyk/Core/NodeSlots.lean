/-
  Core/NodeSlots.lean --- the slots of one node: their vectors, their ids, and what
  `Node::~Node` of `src/core/node.cpp` does to them.

  Two results.  Ids: a slot gets the size of the vector for id, and leaving the
  vector only erases; so the ids say the position as long as no slot is registered
  while the ids of the living ones have a gap.  Destruction: the loops of the
  destructor step over a vector that the deleted slot leaves, so they delete every
  second slot only.

  VECTORS.  An iterator is an index here.  `erase` moves the elements behind the
  erased one to the left, and the iterator of the destructor stays where it is.
-/
import Rubyk.Core.LinkGraph
import Mathlib.Data.List.Pairwise

set_option autoImplicit false

namespace Rubyk.SlotGraph

variable {T : Type} {noType : T → Bool} {canReceive : T → T → Bool}
  {g g' : SlotGraph T} {s t : SlotId} {n : NodeId} {kind : SlotKind}

/-- The vector of a node, empty when there is no node. -/
def slotsIn (g : SlotGraph T) (n : NodeId) (kind : SlotKind) : List SlotId :=
  match g.nodes n with
  | some node => node.slotsOf kind
  | none => []

/-- The node and the kind of a live slot. -/
def homeOf (g : SlotGraph T) (s : SlotId) : Option (NodeId × SlotKind) :=
  (g.slots s).map fun slot => (slot.node, slot.kind)

/-- `id_` of a live slot. -/
def idOf (g : SlotGraph T) (s : SlotId) : Int :=
  match g.slots s with
  | some slot => slot.id
  | none => 0

/-! ## `Node::~Node` -/

/-- One of the two loops of `Node::~Node`, from iterator position `it` on, for at most
`fuel` turns.  The deleted slots are returned in order. -/
def deleteSlots (n : NodeId) (kind : SlotKind) :
    Nat → Nat → SlotGraph T → List SlotId × SlotGraph T
  | 0, _, g => ([], g)
  | fuel + 1, it, g =>
      match (g.slotsIn n kind)[it]? with
      | some s =>
          let rest := deleteSlots n kind fuel (it + 1) (g.destroy s)
          (s :: rest.1, rest.2)
      | none => ([], g)

/-- The loops of `Node::~Node`.  A turn of a loop does not make the vector longer, so
its length is enough fuel (`deleteSlots_ends`). -/
def destroyNode (g : SlotGraph T) (n : NodeId) : List SlotId × SlotGraph T :=
  let outlets := deleteSlots n .outlet (g.slotsIn n .outlet).length 0 g
  let inlets := deleteSlots n .inlet (outlets.2.slotsIn n .inlet).length 0 outlets.2
  (outlets.1 ++ inlets.1, inlets.2)

/-! ## What the vectors hold -/

/-- Every vector holds live slots of its node and kind, each once. -/
structure Vectors (g : SlotGraph T) : Prop where
  nodup : ∀ n kind, (g.slotsIn n kind).Nodup
  home : ∀ n kind, ∀ s ∈ g.slotsIn n kind, g.homeOf s = some (n, kind)

theorem vectors_empty : Vectors (empty : SlotGraph T) where
  nodup _ _ := List.nodup_nil
  home _ _ _ hs := absurd hs List.not_mem_nil

theorem SameKeys.slotsIn (h : SameKeys g g') (n : NodeId) (kind : SlotKind) :
    g'.slotsIn n kind = g.slotsIn n kind := by
  simp [SlotGraph.slotsIn, h.nodes]

theorem homeOf_of_key (h : (g'.slots s).map Slot.key = (g.slots s).map Slot.key) :
    g'.homeOf s = g.homeOf s := by
  have hkey := congrArg (Option.map fun slot => (slot.node, slot.kind)) h
  simpa [SlotGraph.homeOf, Slot.key, Function.comp_def] using hkey

theorem idOf_of_key (h : (g'.slots s).map Slot.key = (g.slots s).map Slot.key) :
    g'.idOf s = g.idOf s := by
  cases hs : g.slots s with
  | none =>
    cases hs' : g'.slots s with
    | none => simp [idOf, hs, hs']
    | some slot' => simp [hs, hs'] at h
  | some slot =>
    cases hs' : g'.slots s with
    | none => simp [hs, hs'] at h
    | some slot' =>
      simp only [hs, hs', Option.map_some, Option.some.injEq] at h
      simpa [idOf, hs, hs'] using Slot.id_of_key h

theorem home_iff : g.homeOf s = some (n, kind) ↔
    ∃ slot, g.slots s = some slot ∧ slot.node = n ∧ slot.kind = kind := by
  simp [homeOf]

/-- Nothing but the vectors and the homes matters. -/
theorem Vectors.congr (h : Vectors g) (hvec : ∀ n kind, g'.slotsIn n kind = g.slotsIn n kind)
    (hhome : ∀ s, g'.homeOf s = g.homeOf s) : Vectors g' where
  nodup n kind := by rw [hvec]; exact h.nodup n kind
  home n kind s hs := by
    rw [hvec] at hs
    rw [hhome]
    exact h.home n kind s hs

/-! ## What the operations do to the vectors -/

theorem slotsIn_newNode (hn : g.nodes n = none) (m : NodeId) (kind : SlotKind) :
    (g.newNode n).slotsIn m kind = g.slotsIn m kind := by
  by_cases hm : m = n
  · subst hm
    cases kind <;> simp [slotsIn, newNode, hn, Node.slotsOf]
  · simp [slotsIn, newNode, hm]

theorem slotsIn_newSlot (hn : (g.nodes n).isSome) (kind : SlotKind) (s : SlotId) (type : T)
    (m : NodeId) (kind' : SlotKind) :
    (g.newSlot kind s n type).slotsIn m kind' =
      if m = n ∧ kind' = kind then g.slotsIn m kind' ++ [s] else g.slotsIn m kind' := by
  obtain ⟨node, hnode⟩ := Option.isSome_iff_exists.mp hn
  unfold slotsIn
  rw [nodes_newSlot hnode]
  by_cases hm : m = n
  · subst hm
    by_cases hk : kind' = kind
    · simp [hk, hnode]
    · simp [hk, hnode]
  · simp [hm]

theorem slotsIn_setTriggerPosition (n : NodeId) (value : ℚ) (m : NodeId) (kind : SlotKind) :
    (g.setTriggerPosition n value).slotsIn m kind = g.slotsIn m kind := by
  unfold setTriggerPosition
  rw [(resorted_sortNode _ n).toSameKeys.slotsIn]
  unfold slotsIn
  rw [nodes_modifyNode]
  by_cases hm : m = n
  · subst hm
    cases g.nodes m <;> cases kind <;> simp [Node.slotsOf]
  · simp [hm]

theorem slotsIn_destroy (hs : g.homeOf s = some (n, kind)) (m : NodeId) (kind' : SlotKind) :
    (g.destroy s).slotsIn m kind' =
      if m = n ∧ kind' = kind then (g.slotsIn m kind').erase s else g.slotsIn m kind' := by
  obtain ⟨slot, hslot, rfl, rfl⟩ := home_iff.mp hs
  unfold slotsIn
  rw [nodes_destroy hslot, unregisterIn, nodes_modifyNode]
  by_cases hm : m = slot.node
  · subst hm
    by_cases hk : kind' = slot.kind
    · cases g.nodes slot.node <;> simp [hk]
    · cases g.nodes slot.node <;> simp [hk]
  · simp [hm]

theorem homeOf_newSlot (hn : (g.nodes n).isSome) (kind : SlotKind) (s : SlotId) (type : T)
    (t : SlotId) :
    (g.newSlot kind s n type).homeOf t = if t = s then some (n, kind) else g.homeOf t := by
  obtain ⟨node, hnode⟩ := Option.isSome_iff_exists.mp hn
  unfold homeOf
  rw [slots_newSlot hnode]
  split <;> rfl

theorem idOf_newSlot (hn : (g.nodes n).isSome) (kind : SlotKind) (s : SlotId) (type : T)
    (t : SlotId) :
    (g.newSlot kind s n type).idOf t =
      if t = s then ((g.slotsIn n kind).length : Int) else g.idOf t := by
  obtain ⟨node, hnode⟩ := Option.isSome_iff_exists.mp hn
  unfold idOf slotsIn
  rw [slots_newSlot hnode, hnode]
  by_cases hts : t = s
  · simp [hts]
  · simp [hts]

theorem homeOf_destroy (hts : t ≠ s) : (g.destroy s).homeOf t = g.homeOf t :=
  homeOf_of_key (samePlace_destroy hts).key

theorem slots_destroy_self (g : SlotGraph T) (s : SlotId) : (g.destroy s).slots s = none := by
  unfold destroy
  cases hs : g.slots s with
  | none => simpa using hs
  | some slot => simp

/-- The vectors after a destructor. -/
theorem Vectors.destroy (h : Vectors g) (s : SlotId) : Vectors (g.destroy s) := by
  cases hs : g.homeOf s with
  | none =>
    have hdead : g.slots s = none := by simpa [homeOf] using hs
    simpa [SlotGraph.destroy, hdead] using h
  | some home =>
    obtain ⟨n, kind⟩ := home
    constructor
    · intro m kind'
      rw [slotsIn_destroy hs]
      split
      · exact (h.nodup m kind').erase s
      · exact h.nodup m kind'
    · intro m kind' t ht
      have hmem : t ∈ g.slotsIn m kind' ∧ t ≠ s := by
        rw [slotsIn_destroy hs] at ht
        split at ht
        · have hmem := (h.nodup m kind').mem_erase_iff.mp ht
          exact ⟨hmem.2, hmem.1⟩
        · rename_i hother
          refine ⟨ht, ?_⟩
          rintro rfl
          have hhome := h.home m kind' t ht
          rw [hs] at hhome
          cases hhome
          exact hother ⟨rfl, rfl⟩
      rw [homeOf_destroy hmem.2]
      exact h.home m kind' t hmem.1

/-- Every operation keeps the vectors in order. -/
theorem Vectors.step {a : SlotAction T} (h : Vectors g)
    (hstep : SlotGraph.step noType canReceive g a = .ok g') : Vectors g' := by
  have hdone := performed hstep
  cases a with
  | newNode n =>
    obtain ⟨hn, rfl⟩ := hdone
    exact h.congr (slotsIn_newNode hn) fun _ => rfl
  | newSlot kind s n type =>
    obtain ⟨hs, hn, rfl⟩ := hdone
    have hnot : ∀ m kind', s ∉ g.slotsIn m kind' := by
      intro m kind' hmem
      simpa [homeOf, hs] using h.home m kind' s hmem
    constructor
    · intro m kind'
      rw [slotsIn_newSlot hn]
      split
      · exact List.nodup_append.mpr ⟨h.nodup m kind', List.nodup_singleton s,
          fun t ht u hu => by
            rw [List.mem_singleton.mp hu]
            rintro rfl
            exact hnot m kind' ht⟩
      · exact h.nodup m kind'
    · intro m kind' t ht
      rw [slotsIn_newSlot hn] at ht
      rw [homeOf_newSlot hn]
      by_cases hts : t = s
      · subst hts
        split at ht
        · rename_i heq
          rw [if_pos rfl, heq.1, heq.2]
        · exact absurd ht (hnot m kind')
      · rw [if_neg hts]
        refine h.home m kind' t ?_
        split at ht
        · simpa [hts] using ht
        · exact ht
  | connect s t =>
    obtain ⟨hst, rfl⟩ := hdone
    have hkeys := sameKeys_connect noType canReceive g s t
    exact h.congr hkeys.slotsIn fun u => homeOf_of_key (hkeys.slots u)
  | disconnect s t =>
    obtain ⟨hst, rfl⟩ := hdone
    exact h.congr sameKeys_disconnect.slotsIn fun u => homeOf_of_key (sameKeys_disconnect.slots u)
  | setId s id =>
    obtain rfl := hdone
    have hkeys := (resorted_sortIncomingConnections
      (g.modifySlot s fun slot => { slot with id := id }) s).toSameKeys
    refine h.congr (fun m kind => hkeys.slotsIn m kind) fun t => ?_
    refine (homeOf_of_key (hkeys.slots t)).trans ?_
    unfold homeOf
    rw [slots_modifySlot]
    by_cases hts : t = s
    · subst hts
      cases g.slots t <;> simp
    · simp [hts]
  | setTriggerPosition n value =>
    obtain rfl := hdone
    exact h.congr (slotsIn_setTriggerPosition n value) fun t =>
      homeOf_of_key ((resorted_sortNode _ n).toSameKeys.slots t)
  | destroy s =>
    obtain rfl := hdone
    exact h.destroy s

theorem Vectors.of_run {acts : List (SlotAction T)}
    (h : Lib.Run (Lib.StepOf (SlotGraph.step noType canReceive)) empty acts g) : Vectors g :=
  h.invariant Vectors (fun _ _ _ hvec hstep => hvec.step hstep) vectors_empty

/-! ## Destroying a node -/

/-- Every registered slot is deleted once, and nothing of the node is left. -/
structure NodeDestroyed (g : SlotGraph T) (n : NodeId) (deleted : List SlotId)
    (g' : SlotGraph T) : Prop where
  nodup : deleted.Nodup
  mem : ∀ s, s ∈ deleted ↔ s ∈ g.slotsIn n .outlet ∨ s ∈ g.slotsIn n .inlet
  outlets : g'.slotsIn n .outlet = []
  inlets : g'.slotsIn n .inlet = []
  unlinked : ∀ s, s ∈ g.slotsIn n .outlet ∨ s ∈ g.slotsIn n .inlet →
    ∀ t, s ∉ g'.connections t

/-- One turn of a loop of the destructor: the vector loses one slot, and the other
vector of the node loses none. -/
theorem slotsIn_turn (h : Vectors g) {it : Nat} (hs : (g.slotsIn n kind)[it]? = some s) :
    (g.destroy s).slotsIn n kind = (g.slotsIn n kind).erase s ∧
      ((g.destroy s).slotsIn n kind).length + 1 = (g.slotsIn n kind).length ∧
      ∀ kind', kind' ≠ kind → (g.destroy s).slotsIn n kind' = g.slotsIn n kind' := by
  have hmem : s ∈ g.slotsIn n kind := List.mem_of_getElem? hs
  have hhome := h.home n kind s hmem
  have herase : (g.destroy s).slotsIn n kind = (g.slotsIn n kind).erase s := by
    rw [slotsIn_destroy hhome, if_pos ⟨rfl, rfl⟩]
  refine ⟨herase, ?_, fun kind' hne => ?_⟩
  · have hpos := List.length_pos_of_mem hmem
    rw [herase, List.length_erase_of_mem hmem]
    omega
  · rw [slotsIn_destroy hhome, if_neg fun heq => hne heq.2]

/-- A loop that is past the end does nothing. -/
theorem deleteSlots_done {it : Nat} (h : (g.slotsIn n kind).length ≤ it) (fuel : Nat) :
    deleteSlots n kind fuel it g = ([], g) := by
  cases fuel with
  | zero => rfl
  | succ fuel => simp [deleteSlots, List.getElem?_eq_none h]

/-- A turn for each element is enough: more fuel changes nothing. -/
theorem deleteSlots_ends (n : NodeId) (kind : SlotKind) (fuel : Nat) :
    ∀ (it : Nat) (g : SlotGraph T), Vectors g → (g.slotsIn n kind).length ≤ it + fuel →
      deleteSlots n kind (fuel + 1) it g = deleteSlots n kind fuel it g := by
  induction fuel with
  | zero => exact fun it g _ hle => deleteSlots_done hle 1
  | succ fuel ih =>
    intro it g h hle
    rw [deleteSlots, deleteSlots]
    cases hs : (g.slotsIn n kind)[it]? with
    | none => rfl
    | some s =>
      obtain ⟨-, hturn, -⟩ := slotsIn_turn h hs
      simp only [ih (it + 1) (g.destroy s) (h.destroy s) (by omega)]

/-- A loop leaves the other vector alone, and never touches what it has passed. -/
theorem slotsIn_deleteSlots (n : NodeId) (kind : SlotKind) (fuel : Nat) :
    ∀ (it : Nat) (g : SlotGraph T), Vectors g →
      Vectors (deleteSlots n kind fuel it g).2 ∧
      (∀ kind', kind' ≠ kind →
        (deleteSlots n kind fuel it g).2.slotsIn n kind' = g.slotsIn n kind') ∧
      (it ≤ (g.slotsIn n kind).length →
        it ≤ ((deleteSlots n kind fuel it g).2.slotsIn n kind).length) := by
  induction fuel with
  | zero => exact fun it g h => ⟨h, fun _ _ => rfl, fun hle => hle⟩
  | succ fuel ih =>
    intro it g h
    unfold deleteSlots
    cases hs : (g.slotsIn n kind)[it]? with
    | none => exact ⟨h, fun _ _ => rfl, fun hle => hle⟩
    | some s =>
      obtain ⟨hvec, hother, hlen⟩ := ih (it + 1) (g.destroy s) (h.destroy s)
      obtain ⟨-, hturn, hsame⟩ := slotsIn_turn h hs
      refine ⟨hvec, fun kind' hne => (hother kind' hne).trans (hsame kind' hne), fun _ => ?_⟩
      have hit : it < (g.slotsIn n kind).length := (List.getElem?_eq_some_iff.mp hs).1
      by_cases hnext : it + 1 ≤ ((g.destroy s).slotsIn n kind).length
      · exact (Nat.le_succ it).trans (hlen hnext)
      · -- the erased slot was the last one, and the loop ends
        have hdone : deleteSlots n kind fuel (it + 1) (g.destroy s) = ([], g.destroy s) :=
          deleteSlots_done (by omega) fuel
        simp only [hdone]
        omega

/-- A loop over two slots or more leaves one: it passes the second slot, which has
moved to the place of the first. -/
theorem deleteSlots_leaves (h : Vectors g) (hmany : 2 ≤ (g.slotsIn n kind).length) :
    (deleteSlots n kind (g.slotsIn n kind).length 0 g).2.slotsIn n kind ≠ [] := by
  obtain ⟨s, hs⟩ : ∃ s, (g.slotsIn n kind)[0]? = some s :=
    ⟨_, List.getElem?_eq_getElem (by omega)⟩
  obtain ⟨-, hturn, -⟩ := slotsIn_turn h hs
  obtain ⟨fuel, hfuel⟩ : ∃ fuel, (g.slotsIn n kind).length = fuel + 1 :=
    ⟨_, (Nat.succ_pred_eq_of_pos (by omega)).symm⟩
  obtain ⟨-, -, hlen⟩ := slotsIn_deleteSlots n kind fuel 1 (g.destroy s) (h.destroy s)
  have hleft := hlen (by omega)
  rw [hfuel, deleteSlots, hs]
  exact List.ne_nil_of_length_pos hleft

/-- A loop over one slot at most deletes it, with its links. -/
theorem deleteSlots_short (hvec : Vectors g) (hlinked : Linked g)
    (hshort : (g.slotsIn n kind).length ≤ 1) :
    ∃ g', deleteSlots n kind (g.slotsIn n kind).length 0 g = (g.slotsIn n kind, g') ∧
      g'.slotsIn n kind = [] ∧ Linked g' ∧
      (∀ s t, s ∈ g'.connections t → s ∈ g.connections t) ∧
      ∀ s ∈ g.slotsIn n kind, ∀ t, s ∉ g'.connections t := by
  cases hslots : g.slotsIn n kind with
  | nil => exact ⟨g, rfl, hslots, hlinked, fun _ _ h => h, by simp⟩
  | cons s rest =>
    obtain rfl : rest = [] := by simpa [hslots] using hshort
    have hhead : (g.slotsIn n kind)[0]? = some s := by rw [hslots]; rfl
    obtain ⟨herase, -, -⟩ := slotsIn_turn hvec hhead
    refine ⟨g.destroy s, ?_, by simp [herase, hslots], hlinked.destroy s, ?_, ?_⟩
    · simp [deleteSlots, hslots]
    · exact fun u t hu => ((hlinked.mem_destroy s t u).mp hu).1
    · intro u hu t hmem
      rw [List.mem_singleton] at hu
      exact ((hlinked.mem_destroy s t u).mp hmem).2.2 hu

/-- The destructor deletes all slots of a node exactly when there is nothing to step
over: one outlet and one inlet at most. -/
theorem node_destroyed_iff {acts : List (SlotAction T)}
    (hrun : Lib.Run (Lib.StepOf (SlotGraph.step noType canReceive)) empty acts g)
    (n : NodeId) :
    NodeDestroyed g n (g.destroyNode n).1 (g.destroyNode n).2 ↔
      (g.slotsIn n .outlet).length ≤ 1 ∧ (g.slotsIn n .inlet).length ≤ 1 := by
  have hvec := Vectors.of_run hrun
  have hlinked := Linked.of_run hrun
  obtain ⟨hvec', hinlets, houtlets⟩ :=
    slotsIn_deleteSlots n .outlet (g.slotsIn n .outlet).length 0 g hvec
  obtain ⟨-, hkeeps, -⟩ := slotsIn_deleteSlots n .inlet
    ((deleteSlots n .outlet (g.slotsIn n .outlet).length 0 g).2.slotsIn n .inlet).length 0
    (deleteSlots n .outlet (g.slotsIn n .outlet).length 0 g).2 hvec'
  have hsame := hinlets .inlet (by decide)
  constructor
  · intro h
    constructor
    · by_contra hmany
      exact deleteSlots_leaves hvec (by omega)
        ((hkeeps .outlet (by decide)).symm.trans h.outlets)
    · by_contra hmany
      refine deleteSlots_leaves hvec' ?_ h.inlets
      rw [hsame]
      omega
  · rintro ⟨hout, hin⟩
    obtain ⟨g₁, hloop, hempty, hlinked₁, hsub₁, hgone₁⟩ := deleteSlots_short hvec hlinked hout
    rw [hloop] at hvec' hsame hkeeps
    simp only at hvec' hsame hkeeps
    rw [← hsame] at hin
    obtain ⟨g₂, hloop₂, hempty₂, -, hsub₂, hgone₂⟩ := deleteSlots_short hvec' hlinked₁ hin
    have hkept := hkeeps .outlet (by decide)
    rw [hloop₂] at hkept
    have hdestroy : g.destroyNode n = (g.slotsIn n .outlet ++ g.slotsIn n .inlet, g₂) := by
      simp only [destroyNode, hloop, hloop₂]
      rw [hsame]
    rw [hdestroy]
    refine ⟨?_, fun s => List.mem_append, hkept.trans hempty, hempty₂, ?_⟩
    · refine List.nodup_append.mpr ⟨hvec.nodup n .outlet, hvec.nodup n .inlet, ?_⟩
      rintro s hs t ht rfl
      have hhome := hvec.home n .outlet s hs
      rw [hvec.home n .inlet s ht] at hhome
      cases hhome
    · rintro s (hs | hs) t hmem
      · exact hgone₁ s hs t (hsub₂ s t hmem)
      · exact hgone₂ s (hsame ▸ hs) t hmem

theorem node_destroyed_pair : ∃ g : SlotGraph Unit,
    (g.slotsIn 0 .outlet = [10] ∧ g.slotsIn 0 .inlet = [11]) ∧
      NodeDestroyed g 0 (g.destroyNode 0).1 (g.destroyNode 0).2 := by
  have hrun : Lib.Run (Lib.StepOf (step (fun _ => false) fun _ _ => true)) empty
      [.newNode 0, .newSlot .outlet 10 0 (), .newSlot .inlet 11 0 ()] _ := Lib.Run.of_foldlM rfl
  exact ⟨_, ⟨by decide, by decide⟩, (node_destroyed_iff hrun 0).mpr (by decide)⟩

/-- Two outlets, the second one linked: it survives its node, and so does its link. -/
theorem second_outlet_survives : ∃ g : SlotGraph Unit,
    Lib.Run (Lib.StepOf (step (fun _ => false) fun _ _ => true)) empty
      [.newNode 0, .newNode 1, .newSlot .outlet 10 0 (), .newSlot .outlet 11 0 (),
        .newSlot .inlet 12 1 (), .connect 11 12] g ∧
    (g.destroyNode 0).1 = [10] ∧ (g.destroyNode 0).2.slotsIn 0 .outlet = [11] ∧
    11 ∈ (g.destroyNode 0).2.connections 12 ∧
    ¬ NodeDestroyed g 0 (g.destroyNode 0).1 (g.destroyNode 0).2 := by
  refine ⟨_, Lib.Run.of_foldlM rfl, by decide, by decide, by decide, ?_⟩
  intro h
  exact absurd h.outlets (by decide)

/-! ## Ids -/

/-- The action calls `set_id` from outside. -/
def SlotAction.setsId : SlotAction T → Bool
  | .setId _ _ => true
  | _ => false

/-- A step in which ids come from the registration only. -/
def StepByPosition (noType : T → Bool) (canReceive : T → T → Bool) (g : SlotGraph T)
    (a : SlotAction T) (g' : SlotGraph T) : Prop :=
  SlotAction.setsId a = false ∧ SlotGraph.step noType canReceive g a = .ok g'

/-- In every vector the ids increase, and the comparison of any two of its slots puts
one before the other. -/
structure IdsByPosition (g : SlotGraph T) : Prop where
  increasing : ∀ n kind, (g.slotsIn n kind).Pairwise fun s t => g.idOf s < g.idOf t
  determined : ∀ n kind, ∀ s ∈ g.slotsIn n kind, ∀ t ∈ g.slotsIn n kind, s ≠ t →
    (g.ge s t = true ↔ g.ge t s = false)

/-- The slot that is registered gets an id greater than those of the slots already in
the vector: no destroyed slot left a gap below a living one. -/
def NoGap (g : SlotGraph T) : SlotAction T → Prop
  | .newSlot kind _ n _ => ∀ t ∈ g.slotsIn n kind, g.idOf t < (g.slotsIn n kind).length
  | _ => True

/-- Within a vector the comparison is that of the ids. -/
theorem ge_of_mem (h : Vectors g) (hs : s ∈ g.slotsIn n kind) (ht : t ∈ g.slotsIn n kind) :
    g.ge s t = decide (g.idOf s < g.idOf t) := by
  obtain ⟨slot, hslot, hnode, -⟩ := home_iff.mp (h.home n kind s hs)
  obtain ⟨other, hother, hnode', -⟩ := home_iff.mp (h.home n kind t ht)
  simp [ge, idOf, hslot, hother, hnode, hnode']

theorem idsByPosition_iff (h : Vectors g) : IdsByPosition g ↔
    ∀ n kind, (g.slotsIn n kind).Pairwise fun s t => g.idOf s < g.idOf t := by
  refine ⟨fun hg => hg.increasing, fun hg => ⟨hg, fun n kind s hs t ht hst => ?_⟩⟩
  rw [ge_of_mem h hs ht, ge_of_mem h ht hs, decide_eq_true_eq, decide_eq_false_iff_not]
  have hne : ∀ s ∈ g.slotsIn n kind, ∀ t ∈ g.slotsIn n kind, s ≠ t → g.idOf s ≠ g.idOf t := by
    have : Std.Symm fun s t => s ≠ t → g.idOf s ≠ g.idOf t :=
      ⟨fun s t hst hts => (hst hts.symm).symm⟩
    exact List.Pairwise.forall_of_forall (fun s _ hss => absurd rfl hss)
      ((hg n kind).imp fun hlt _ => hlt.ne)
  have := hne s hs t ht hst
  omega

/-- A slot that is registered keeps the ids in order exactly when there is no gap. -/
theorem increasing_newSlot (h : Vectors g)
    (hg : ∀ n kind, (g.slotsIn n kind).Pairwise fun s t => g.idOf s < g.idOf t)
    (hs : g.slots s = none) (hn : (g.nodes n).isSome) (kind : SlotKind) (type : T) :
    (∀ m kind', ((g.newSlot kind s n type).slotsIn m kind').Pairwise fun t u =>
      (g.newSlot kind s n type).idOf t < (g.newSlot kind s n type).idOf u) ↔
        NoGap g (.newSlot kind s n type) := by
  have hold : ∀ m kind', ∀ t ∈ g.slotsIn m kind',
      (g.newSlot kind s n type).idOf t = g.idOf t := by
    intro m kind' t ht
    rw [idOf_newSlot hn, if_neg]
    rintro rfl
    simpa [homeOf, hs] using h.home m kind' t ht
  have hnew : (g.newSlot kind s n type).idOf s = ((g.slotsIn n kind).length : Int) := by
    rw [idOf_newSlot hn, if_pos rfl]
  have hpair : ∀ m kind', (g.slotsIn m kind').Pairwise fun t u =>
      (g.newSlot kind s n type).idOf t < (g.newSlot kind s n type).idOf u := by
    intro m kind'
    refine (hg m kind').imp_of_mem fun ht hu hlt => ?_
    rwa [hold m kind' _ ht, hold m kind' _ hu]
  constructor
  · intro hall t ht
    have hgrown := hall n kind
    rw [slotsIn_newSlot hn, if_pos ⟨rfl, rfl⟩, List.pairwise_append] at hgrown
    have hlt := hgrown.2.2 t ht s (List.mem_singleton_self s)
    rwa [hold n kind t ht, hnew] at hlt
  · intro hgap m kind'
    rw [slotsIn_newSlot hn]
    split
    · rename_i heq
      obtain ⟨rfl, rfl⟩ := heq
      refine List.pairwise_append.mpr ⟨hpair m kind', List.pairwise_singleton _ _, ?_⟩
      intro t ht u hu
      rw [List.mem_singleton.mp hu, hold m kind' t ht, hnew]
      exact hgap t ht
    · exact hpair m kind'

/-- A slot that is destroyed leaves the others in their places, with their ids. -/
theorem slotsIn_destroy_sublist (h : Vectors g) (s : SlotId) (n : NodeId) (kind : SlotKind) :
    ((g.destroy s).slotsIn n kind).Sublist (g.slotsIn n kind) ∧
      ∀ t ∈ (g.destroy s).slotsIn n kind, (g.destroy s).idOf t = g.idOf t := by
  cases hs : g.homeOf s with
  | none =>
    have hdead : g.slots s = none := by simpa [homeOf] using hs
    have hsame : g.destroy s = g := by simp [SlotGraph.destroy, hdead]
    rw [hsame]
    exact ⟨List.Sublist.refl _, fun _ _ => rfl⟩
  | some home =>
    constructor
    · rw [slotsIn_destroy hs]
      split
      · exact List.erase_sublist
      · exact List.Sublist.refl _
    · intro t ht
      refine idOf_of_key (samePlace_destroy ?_).key
      rintro rfl
      have hhome := (h.destroy t).home n kind t ht
      simp [homeOf, slots_destroy_self] at hhome

/-- What a step does to the ids: nothing, unless a slot is registered. -/
theorem increasing_step {a : SlotAction T} (h : Vectors g)
    (hg : ∀ n kind, (g.slotsIn n kind).Pairwise fun s t => g.idOf s < g.idOf t)
    (hstep : StepByPosition noType canReceive g a g') :
    (∀ n kind, (g'.slotsIn n kind).Pairwise fun s t => g'.idOf s < g'.idOf t) ↔ NoGap g a := by
  obtain ⟨hids, hstep⟩ := hstep
  have hdone := performed hstep
  -- the vectors may lose slots, and the ids of the others stay
  have hkeep (hsub : ∀ n kind, (g'.slotsIn n kind).Sublist (g.slotsIn n kind))
      (hid : ∀ n kind, ∀ s ∈ g'.slotsIn n kind, g'.idOf s = g.idOf s) :
      ∀ n kind, (g'.slotsIn n kind).Pairwise fun s t => g'.idOf s < g'.idOf t := by
    intro n kind
    refine ((hg n kind).sublist (hsub n kind)).imp_of_mem fun hs ht hlt => ?_
    rwa [hid n kind _ hs, hid n kind _ ht]
  cases a with
  | setId s id => cases hids
  | newSlot kind s n type =>
    obtain ⟨hs, hn, rfl⟩ := hdone
    exact increasing_newSlot h hg hs hn kind type
  | newNode n =>
    obtain ⟨hn, rfl⟩ := hdone
    refine iff_of_true (hkeep (fun m kind => ?_) fun _ _ _ _ => rfl) trivial
    rw [slotsIn_newNode hn]
  | connect s t =>
    obtain ⟨hst, rfl⟩ := hdone
    have hkeys := sameKeys_connect noType canReceive g s t
    exact iff_of_true (hkeep (fun m kind => by rw [hkeys.slotsIn])
      fun _ _ u _ => idOf_of_key (hkeys.slots u)) trivial
  | disconnect s t =>
    obtain ⟨hst, rfl⟩ := hdone
    exact iff_of_true (hkeep (fun m kind => by rw [sameKeys_disconnect.slotsIn])
      fun _ _ u _ => idOf_of_key (sameKeys_disconnect.slots u)) trivial
  | setTriggerPosition n value =>
    obtain rfl := hdone
    exact iff_of_true (hkeep (fun m kind => by rw [slotsIn_setTriggerPosition])
      fun _ _ u _ => idOf_of_key ((resorted_sortNode _ n).toSameKeys.slots u)) trivial
  | destroy s =>
    obtain rfl := hdone
    exact iff_of_true (hkeep (fun m kind => (slotsIn_destroy_sublist h s m kind).1)
      fun m kind => (slotsIn_destroy_sublist h s m kind).2) trivial

/-- Ids say the position, in all states of a run, exactly when no slot is registered
while the ids of the living ones have a gap below them. -/
theorem ids_by_position_iff (acts : List (SlotAction T)) :
    Lib.Throughout (StepByPosition noType canReceive) empty acts IdsByPosition ↔
      Lib.EveryStep (StepByPosition noType canReceive) empty acts NoGap := by
  have hinv : ∀ (g : SlotGraph T) a g', Vectors g →
      StepByPosition noType canReceive g a g' → Vectors g' :=
    fun _ _ _ h hstep => h.step hstep.2
  refine Lib.throughout_iff hinv ?_ vectors_empty ?_ acts
  · intro g a g' h hg hstep
    rw [idsByPosition_iff (h.step hstep.2)]
    exact increasing_step h hg.increasing hstep
  · rw [idsByPosition_iff vectors_empty]
    exact fun _ _ => List.Pairwise.nil

theorem run_byPosition {acts : List (SlotAction T)}
    (hrun : Lib.Run (Lib.StepOf (SlotGraph.step noType canReceive)) g acts g')
    (hids : ∀ a ∈ acts, SlotAction.setsId a = false) :
    Lib.Run (StepByPosition noType canReceive) g acts g' := by
  induction hrun with
  | nil => exact .nil
  | snoc _ hlast ih =>
    exact (ih fun a ha => hids a (List.mem_append_left _ ha)).snoc
      ⟨hids _ (List.mem_append_right _ (List.mem_singleton_self _)), hlast⟩

/-- Two inlets, the first one dies, and a third one gets the id of the second. -/
theorem ids_clash : ¬ Lib.Throughout (StepByPosition (fun _ => false) fun _ _ => true)
    (empty : SlotGraph Unit)
    [.newNode 0, .newSlot .inlet 10 0 (), .newSlot .inlet 11 0 (), .destroy 10,
      .newSlot .inlet 12 0 ()] IdsByPosition := by
  intro h
  have hrun : Lib.Run (Lib.StepOf (step (fun _ => false) fun _ _ => true)) (empty : SlotGraph Unit)
      [.newNode 0, .newSlot .inlet 10 0 (), .newSlot .inlet 11 0 (), .destroy 10,
        .newSlot .inlet 12 0 ()] _ := Lib.Run.of_foldlM rfl
  have hids := (h _ _ (List.prefix_refl _) (run_byPosition hrun (by decide))).increasing 0 .inlet
  exact absurd hids (by decide)

end Rubyk.SlotGraph
