/-
  Core/LinkTargets.lean --- the slot that `Slot::change_link` acts on.

  A url can lead to a slot, which stands for itself, or to a node, which stands for its
  first inlet or outlet, whichever the calling slot can be linked with.  `change_link`
  only ever looks into the folder `in`, so an inlet that is told to link with a node
  is told that they are incompatible (`links_by_direction_iff`).

  THE TREE.  `Class::make_inlets` and `Class::make_outlets` give a node the folders
  `in` and `out` and put slots of one kind into each; nothing else adopts a slot, and
  what a child called `in` of any other object has for children are not slots.  That
  is all that is used of the tree (`Built`).
-/
import Rubyk.Core.PlanetSteps

set_option autoImplicit false

namespace Rubyk

/-- The child of a node that holds its slots of this kind. -/
def SlotKind.folder : SlotKind → String
  | .inlet => "in"
  | .outlet => "out"

namespace SlotGraph

variable {T : Type} {o : Oscit T} {root : Root} {g : SlotGraph T} {s t x : ObjectId}
  {operation : LinkOperation} {val : String} {res : LinkAnswer × SlotGraph T}

/-- `object->kind_of(Node)`. -/
def isNode (g : SlotGraph T) (object : ObjectId) : Bool := (g.nodes object).isSome

/-- The first child of a folder of the object. -/
def firstSlot (root : Root) (object : ObjectId) (kind : SlotKind) : Option ObjectId :=
  (root.child object kind.folder).bind root.firstChild

/-- The tree is one that the program builds. -/
structure Built (root : Root) (g : SlotGraph T) : Prop where
  folder : ∀ n kind t, g.isNode n = true → firstSlot root n kind = some t →
    g.isKind kind t = true
  noFolder : ∀ x t, g.isNode x = false → g.isSlot x = false →
    firstSlot root x .inlet = some t → g.isSlot t = false

/-! ## What a link by direction is -/

/-- The slot that the object at a url stands for when it is linked with `s`. -/
def directedTarget (root : Root) (g : SlotGraph T) (s x : ObjectId) : Option ObjectId :=
  if g.isSlot x then
    if g.isKind (g.wantedKind s) x then some x else none
  else if g.isNode x then firstSlot root x (g.wantedKind s)
  else none

/-- The types of the two slots allow a link. -/
def accepts (o : Oscit T) (g : SlotGraph T) (s t : ObjectId) : Bool :=
  match g.slots s, g.slots t with
  | some slot, some other => compatible o.noType o.canReceive slot other
  | _, _ => false

/-- An error value is returned and no list changes. -/
def Refused (g : SlotGraph T) (res : LinkAnswer × SlotGraph T) : Prop :=
  (∃ code text, res.1 = .error code text) ∧ ∀ t, res.2.connections t = g.connections t

/-- The link with `t` is made or removed and the answer says so; a link between types that
do not allow it is refused. -/
def ActsOn (o : Oscit T) (root : Root) (g : SlotGraph T) (s : ObjectId)
    (operation : LinkOperation) (t : ObjectId) (res : LinkAnswer × SlotGraph T) : Prop :=
  match operation with
  | .create =>
      if accepts o g s t then
        res = (.sss ⟨root.url s, "=>", root.url t⟩, (connect o.noType o.canReceive g s t).2)
      else Refused g res
  | .disconnect => res = (.sss ⟨root.url s, "||", root.url t⟩, g.disconnect s t)

/-- The call acts on this slot, or on none. -/
def Acts (o : Oscit T) (root : Root) (g : SlotGraph T) (s : ObjectId)
    (operation : LinkOperation) (res : LinkAnswer × SlotGraph T) : Option ObjectId → Prop
  | some t => ActsOn o root g s operation t res
  | none => Refused g res

/-- What `link` and `unlink` should do with a url that leads to `x`. -/
def LinksByDirection (o : Oscit T) (root : Root) (g : SlotGraph T) (s : ObjectId)
    (operation : LinkOperation) (val : String) (x : ObjectId) : Prop :=
  Acts o root g s operation (g.changeLink o root s operation val) (directedTarget root g s x)

/-! ## What `change_link` acts on -/

/-- The slot that is left of the target after the cast. -/
def castTarget (root : Root) (g : SlotGraph T) (s x : ObjectId) : Option ObjectId :=
  (linkTarget root g x).filter (g.isKind (g.wantedKind s))

theorem refused_error (code : ErrorCode) (text : String) : Refused g (.error code text, g) :=
  ⟨⟨code, text, rfl⟩, fun _ => rfl⟩

theorem not_refused_sss {v : LinkValue} {g' : SlotGraph T} : ¬ Refused g (.sss v, g') := by
  rintro ⟨⟨code, text, h⟩, -⟩
  exact absurd h (by simp)

theorem accepts_eq : accepts o g s t = (connect o.noType o.canReceive g s t).1 := by
  rw [connect_fst]
  rfl

/-- `connect` changes nothing where the types do not allow a link. -/
theorem connect_of_not_accepts (h : accepts o g s t = false) :
    connect o.noType o.canReceive g s t = (false, g) := by
  unfold accepts at h
  unfold connect
  cases hs : g.slots s with
  | none => simp [addConnection, hs]
  | some slot =>
    cases ht : g.slots t with
    | none => simp [addConnection, hs, ht]
    | some other =>
      have hc : compatible o.noType o.canReceive slot other = false := by simpa [hs, ht] using h
      simp [addConnection, hs, ht, hc]

/-- `change_link` acts on the slot that is left after the cast. -/
theorem changeLink_acts (hval : root.objectAt val = some x) :
    Acts o root g s operation (g.changeLink o root s operation val) (castTarget root g s x) := by
  cases htarget : linkTarget root g x with
  | none =>
    simp only [changeLink, castTarget, hval, htarget]
    exact refused_error _ _
  | some t =>
    cases hkind : g.isKind (g.wantedKind s) t with
    | false =>
      simp only [changeLink, castTarget, hval, htarget, Option.filter_some, hkind,
        Bool.false_eq_true, if_false]
      exact refused_error _ _
    | true =>
      simp only [changeLink, castTarget, hval, htarget, Option.filter_some, hkind, if_true]
      cases operation with
      | disconnect => rfl
      | create =>
        cases haccepts : accepts o g s t with
        | true =>
          have hflag : (connect o.noType o.canReceive g s t).1 = true :=
            accepts_eq.symm.trans haccepts
          simp only [Acts, ActsOn, haccepts, if_true]
          rcases hc : connect o.noType o.canReceive g s t with ⟨flag, g'⟩
          obtain rfl : flag = true := by simpa [hc] using hflag
          rfl
        | false =>
          simp only [Acts, ActsOn, haccepts, connect_of_not_accepts haccepts]
          exact refused_error _ _

theorem isSlot_of_isKind {kind : SlotKind} (h : g.isKind kind x = true) :
    g.isSlot x = true := by
  unfold isKind at h
  unfold isSlot
  cases hx : g.slots x with
  | none => simp [hx] at h
  | some slot => rfl

theorem isKind_unique {kind kind' : SlotKind} (h : g.isKind kind x = true)
    (h' : g.isKind kind' x = true) : kind = kind' := by
  unfold isKind at h h'
  cases hx : g.slots x with
  | none => simp [hx] at h
  | some slot =>
    rw [hx] at h h'
    exact (of_decide_eq_true h).symm.trans (of_decide_eq_true h')

theorem linkTarget_of_not_slot (h : g.isSlot x = false) :
    linkTarget root g x = firstSlot root x .inlet := by
  simp only [linkTarget, h, Bool.false_eq_true, if_false, firstSlot, SlotKind.folder]
  cases root.child x "in" <;> rfl

/-- An inlet looks for the outlet of a node in the folder of its inlets. -/
theorem castTarget_inlet_node (hbuilt : Built root g) (hs : g.isKind .outlet s = false)
    (hx : g.isSlot x = false) (hnode : g.isNode x = true) : castTarget root g s x = none := by
  unfold castTarget wantedKind
  rw [linkTarget_of_not_slot hx, hs]
  refine Option.filter_eq_none_iff.mpr fun t ht hkind => ?_
  exact absurd (isKind_unique (hbuilt.folder x .inlet t hnode ht) hkind) (by decide)

/-- Everywhere else the cast leaves the slot that the direction asks for. -/
theorem castTarget_eq (hbuilt : Built root g)
    (h : g.isSlot x = true ∨ g.isNode x = false ∨ g.isKind .outlet s = true) :
    castTarget root g s x = directedTarget root g s x := by
  unfold castTarget directedTarget
  cases hx : g.isSlot x with
  | true => simp [linkTarget, hx, Option.filter_some]
  | false =>
    rw [linkTarget_of_not_slot hx]
    simp only [Bool.false_eq_true, if_false]
    cases hnode : g.isNode x with
    | true =>
      have houtlet : g.isKind .outlet s = true := by simpa [hx, hnode] using h
      have hwanted : g.wantedKind s = .inlet := by simp [wantedKind, houtlet]
      rw [hwanted, if_pos rfl]
      cases hfirst : firstSlot root x .inlet with
      | none => rfl
      | some t => simp [Option.filter_some, hbuilt.folder x .inlet t hnode hfirst]
    | false =>
      rw [if_neg (by simp)]
      refine Option.filter_eq_none_iff.mpr fun t ht hkind => ?_
      have hnone := hbuilt.noFolder x t hnode hx ht
      rw [isSlot_of_isKind hkind] at hnone
      cases hnone

/-! ## When it is the right slot -/

/-- An inlet is told to link with a node that has an outlet for it. -/
def MissesOutlet (o : Oscit T) (root : Root) (g : SlotGraph T) (s : ObjectId)
    (operation : LinkOperation) (x : ObjectId) : Prop :=
  g.isKind .outlet s = false ∧ g.isSlot x = false ∧ g.isNode x = true ∧
    ∃ t, firstSlot root x .outlet = some t ∧ (operation = .create → accepts o g s t = true)

/-- A call that is refused acts on a slot only where the types do not allow the link. -/
theorem actsOn_of_refused (h : Refused g res) :
    ActsOn o root g s operation t res ↔ ¬ (operation = .create → accepts o g s t = true) := by
  cases operation with
  | disconnect =>
    refine iff_of_false (fun hacts => ?_) (by simp)
    have heq : res = (.sss ⟨root.url s, "||", root.url t⟩, g.disconnect s t) := hacts
    exact not_refused_sss (heq ▸ h)
  | create =>
    cases haccepts : accepts o g s t with
    | false => exact iff_of_true (by simpa [ActsOn, haccepts] using h) (by simp)
    | true =>
      refine iff_of_false (fun hacts => ?_) (by simp)
      have heq : res = (.sss ⟨root.url s, "=>", root.url t⟩,
          (connect o.noType o.canReceive g s t).2) := by
        simpa [ActsOn, haccepts] using hacts
      exact not_refused_sss (heq ▸ h)

/-- A url leads `link` and `unlink` to the slot that the direction asks for, if and only if
it does not lead an inlet to a node with an outlet that it could be linked with. -/
theorem links_by_direction_iff (hbuilt : Built root g) (hval : root.objectAt val = some x) :
    LinksByDirection o root g s operation val x ↔ ¬ MissesOutlet o root g s operation x := by
  have hacts : Acts o root g s operation _ _ := changeLink_acts hval
  unfold LinksByDirection
  by_cases h : g.isSlot x = true ∨ g.isNode x = false ∨ g.isKind .outlet s = true
  · rw [← castTarget_eq hbuilt h]
    refine iff_of_true hacts ?_
    rintro ⟨hs, hx, hnode, -⟩
    simp [hs, hx, hnode] at h
  · simp only [not_or, Bool.not_eq_true, Bool.not_eq_false] at h
    obtain ⟨hx, hnode, hs⟩ := h
    rw [castTarget_inlet_node hbuilt hs hx hnode] at hacts
    have hdirected : directedTarget root g s x = firstSlot root x .outlet := by
      simp [directedTarget, hx, hnode, wantedKind, hs]
    rw [hdirected]
    cases hfirst : firstSlot root x .outlet with
    | none =>
      refine iff_of_true hacts ?_
      rintro ⟨-, -, -, t, ht, -⟩
      simp [hfirst] at ht
    | some t =>
      refine (actsOn_of_refused hacts).trans (not_congr ?_)
      simp [MissesOutlet, hx, hnode, hs, hfirst]

/-- Nodes `/a`, with an outlet, and `/b`, with an inlet. -/
def pairTree : Root where
  objectAt url := if url = "/a" then some 0 else if url = "/b" then some 1 else none
  child object name :=
    if object = 0 ∧ name = "out" then some 20
    else if object = 1 ∧ name = "in" then some 21 else none
  firstChild object :=
    if object = 20 then some 10 else if object = 21 then some 11 else none
  url object := if object = 10 then "/a/out/ping" else "/b/in/pong"

/-- Their slots. -/
def pairGraph : SlotGraph Unit where
  slots s :=
    if s = 10 then some ⟨.outlet, 0, (), 0, []⟩
    else if s = 11 then some ⟨.inlet, 1, (), 0, []⟩ else none
  nodes n := if n = 0 then some ⟨1, [], [10]⟩ else if n = 1 then some ⟨2, [11], []⟩ else none
  sIdCounter := 2

/-- Every inlet receives everything. -/
def unitOscit : Oscit Unit := ⟨fun _ => false, fun _ _ => true, id⟩

theorem built_pair : Built pairTree pairGraph where
  folder := by
    intro n kind t hn ht
    have hn' : n = 0 ∨ n = 1 := by
      simp only [isNode, pairGraph] at hn
      split at hn
      · exact .inl ‹_›
      · split at hn
        · exact .inr ‹_›
        · cases hn
    rcases hn' with rfl | rfl <;> cases kind <;>
      simp [firstSlot, pairTree, SlotKind.folder] at ht <;> subst ht <;> rfl
  noFolder := by
    intro x t hnode _ ht
    have hx : x ≠ 0 ∧ x ≠ 1 := by
      constructor <;> rintro rfl <;> simp [isNode, pairGraph] at hnode
    simp [firstSlot, pairTree, SlotKind.folder, hx.1, hx.2] at ht

/-- The outlet finds the inlet of `/b`. -/
theorem links_by_direction_outlet :
    LinksByDirection unitOscit pairTree pairGraph 10 .create "/b" 1 ↔
      ¬ MissesOutlet unitOscit pairTree pairGraph 10 .create 1 :=
  links_by_direction_iff built_pair rfl

/-- The inlet does not find the outlet of `/a`. -/
theorem inlet_misses_outlet :
    Built pairTree pairGraph ∧ pairTree.objectAt "/a" = some 0 ∧
      ¬ LinksByDirection unitOscit pairTree pairGraph 11 .create "/a" 0 := by
  refine ⟨built_pair, rfl, fun h => ?_⟩
  have hres : (pairGraph.changeLink unitOscit pairTree 11 .create "/a").1 =
      .error .badRequest "Could not update link with /a: incompatible)." ∨
      (pairGraph.changeLink unitOscit pairTree 11 .create "/a").1 =
        .error .notFound "/a: slot not found" := by decide
  have hacts : (pairGraph.changeLink unitOscit pairTree 11 .create "/a").1 =
      .sss ⟨"/b/in/pong", "=>", "/a/out/ping"⟩ := congrArg Prod.fst h
  rw [hacts] at hres
  simp at hres

end SlotGraph

end Rubyk
