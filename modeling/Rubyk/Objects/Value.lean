/-
  Objects/Value.lean --- `ValueNode` of `src/objects/Value.cpp`, and patches that are made
  of nothing else.

  A `ValueNode` keeps what it gets and sends it on, so a patch of such nodes shows what
  the links alone do to a value.  A call of `value` returns exactly when the links lead
  it to no loop, and then every node behind has the value, and got it once for each way
  that leads there.

  OSCIT.  `Value` is a parameter; `isNil` is `Value::is_nil`.
-/
import Rubyk.Lib.Walks
import Rubyk.Core.Propagation

set_option autoImplicit false

namespace Rubyk

open Lib

namespace ValueNode

variable {T V : Type} (isNil : V → Bool)

/-- `value_` after `value(val)`. -/
def updated (val value_ : V) : V := if isNil val then value_ else val

/-- `ValueNode::value` as the method of an inlet, which ignores what is returned. -/
def value (val value_ : V) : Method V V :=
  .send (updated isNil val value_) 1 (updated isNil val value_) .ret

/-- A patch in which every inlet is the `value` of a `ValueNode`. -/
def patch (g : SlotGraph T) : Patch T V V := ⟨g, fun _ val value_ => value isNil val value_⟩

/-- `ValueNode::value` as it is called from outside. -/
def call (g : SlotGraph T) (fuel : Nat) (n : NodeId) (val : V) (w : World V V) :
    Option (V × World V V) := do
  let w ← (patch isNil g).run ((patch isNil g).receive fuel) n (value isNil val (w.members n)) w
  some (w.members n, w)

/-- The inlets that `send(value_)` of a node calls. -/
def links (g : SlotGraph T) (n : NodeId) : List SlotId :=
  match g.outletAt n 1 with
  | some o => g.send o
  | none => []

/-- The node of an inlet. -/
def nodeOf (g : SlotGraph T) (i : SlotId) : NodeId := ((g.slots i).map Slot.node).getD 0

/-- The value of `n` gets to `m`. -/
def Reaches (g : SlotGraph T) : NodeId → NodeId → Prop :=
  Relation.ReflTransGen (Leads (links g) (nodeOf g))

/-- The value of `n` gets to a node for a second time. -/
def Loops (g : SlotGraph T) (n : NodeId) : Prop :=
  ∃ m, Reaches g n m ∧ Relation.TransGen (Leads (links g) (nodeOf g)) m m

variable {isNil : V → Bool} {g : SlotGraph T} {n m : NodeId} {o i : SlotId} {val : V}
  {w w' : World V V} {fuel : Nat}

@[simp] theorem updated_of_not_nil (h : isNil val = false) (value_ : V) :
    updated isNil val value_ = val := by
  simp [updated, h]

theorem reaches_iff : Reaches g n m ↔ n = m ∨ ∃ i ∈ links g n, Reaches g (nodeOf g i) m := by
  constructor
  · intro h
    rcases Relation.ReflTransGen.cases_head h with rfl | ⟨k, ⟨i, hi, rfl⟩, hrest⟩
    exacts [Or.inl rfl, Or.inr ⟨i, hi, hrest⟩]
  · rintro (rfl | ⟨i, hi, hrest⟩)
    exacts [.refl, .head ⟨i, hi, rfl⟩ hrest]

theorem nodeOf_eq {slot : Slot T} (h : g.slots i = some slot) : nodeOf g i = slot.node := by
  simp [nodeOf, h]

theorem alive_of_links (hlinked : SlotGraph.Linked g) (hi : i ∈ links g n) :
    (g.slots i).isSome := by
  unfold links at hi
  split at hi
  · rename_i o ho
    exact hlinked.alive o i hi
  · cases hi

theorem nodup_links (hlinked : SlotGraph.Linked g) (n : NodeId) : (links g n).Nodup := by
  unfold links
  split
  · exact hlinked.nodup _
  · exact List.nodup_nil

/-- The nodes that `P` holds of have got `val`, by the deliveries at the end of `ways`. -/
structure Spread (val : V) (P : NodeId → Prop) (ways : List (List SlotId)) (w w' : World V V) :
    Prop where
  reached : ∀ m, P m → w'.members m = val
  others : ∀ m, ¬ P m → w'.members m = w.members m
  log : ∃ sent, w'.log = w.log ++ sent ∧ (∀ d ∈ sent, d.val = val) ∧
    sent.map (fun d => some d.inlet) = ways.map List.getLast?

/-- The loop of `Outlet::send`, where every inlet spreads the value behind it. -/
theorem sendLoop_spread {receive : SlotId → V → World V V → Option (World V V)} {k : Nat}
    {l : List SlotId} (hk : ∀ i ∈ l, 0 < k)
    (hreceive : ∀ i ∈ l, ∀ w, ∃ w', receive i val w = some w' ∧
      Spread val (Reaches g (nodeOf g i)) (walks (links g) (nodeOf g) k (nodeOf g i)).tail
        w w')
    (w : World V V) :
    ∃ w', Patch.sendLoop receive o val l w = some w' ∧
      Spread val (fun m => ∃ i ∈ l, Reaches g (nodeOf g i) m)
        (l.flatMap fun i => (walks (links g) (nodeOf g) k (nodeOf g i)).map (i :: ·))
        w w' := by
  induction l generalizing w with
  | nil => exact ⟨w, rfl, by simp, fun _ _ => rfl, [], by simp, by simp, rfl⟩
  | cons i l ih =>
    obtain ⟨w₁, hw₁, hfirst⟩ := hreceive i (by simp) (w.deliver o i val)
    obtain ⟨w₂, hw₂, hrest⟩ :=
      ih (fun j hj => hk j (by simp [hj])) (fun j hj => hreceive j (by simp [hj])) w₁
    obtain ⟨sent₁, hlog₁, hval₁, hways₁⟩ := hfirst.log
    obtain ⟨sent₂, hlog₂, hval₂, hways₂⟩ := hrest.log
    refine ⟨w₂, by simp [Patch.sendLoop, hw₁, hw₂], fun m hm => ?_, fun m hm => ?_,
      ⟨o, i, val⟩ :: sent₁ ++ sent₂, ?_, ?_, ?_⟩
    · by_cases hl : ∃ j ∈ l, Reaches g (nodeOf g j) m
      · exact hrest.reached m hl
      · rw [hrest.others m hl]
        obtain ⟨j, hj, hjm⟩ := hm
        rcases List.mem_cons.mp hj with rfl | hj
        exacts [hfirst.reached m hjm, absurd ⟨j, hj, hjm⟩ hl]
    · have hnone : ¬ ∃ j ∈ l, Reaches g (nodeOf g j) m := by
        rintro ⟨j, hj, hjm⟩
        exact hm ⟨j, List.mem_cons_of_mem i hj, hjm⟩
      rw [hrest.others m hnone, hfirst.others m fun him => hm ⟨i, by simp, him⟩]
      rfl
    · simp [hlog₂, hlog₁, World.deliver]
    · intro d hd
      simp only [List.cons_append, List.mem_cons, List.mem_append] at hd
      rcases hd with rfl | hd | hd
      exacts [rfl, hval₁ d hd, hval₂ d hd]
    · rw [List.flatMap_cons, List.map_append, List.map_append,
        map_getLast?_walks i (hk i (by simp)), ← hways₁, ← hways₂]
      rfl

/-- `value` at a node, with the calls of inlets it leads to. -/
theorem run_spread {receive : SlotId → V → World V V → Option (World V V)} {k : Nat}
    (hk : ∀ i ∈ links g n, 0 < k)
    (hreceive : ∀ i ∈ links g n, ∀ w, ∃ w', receive i val w = some w' ∧
      Spread val (Reaches g (nodeOf g i)) (walks (links g) (nodeOf g) k (nodeOf g i)).tail
        w w')
    {given : V} (hgiven : updated isNil given (w.members n) = val) :
    ∃ w', (patch isNil g).run receive n (value isNil given (w.members n)) w = some w' ∧
      Spread val (Reaches g n) (walks (links g) (nodeOf g) (k + 1) n).tail w w' := by
  have hsend : ∃ w₁, (patch isNil g).send receive n 1 val (w.write n val) = some w₁ ∧
      Spread val (fun m => ∃ i ∈ links g n, Reaches g (nodeOf g i) m)
        ((links g n).flatMap fun i =>
          (walks (links g) (nodeOf g) k (nodeOf g i)).map (i :: ·)) (w.write n val) w₁ := by
    unfold Patch.send
    cases ho : g.outletAt n 1 with
    | none =>
      have hlinks : links g n = [] := by simp [links, ho]
      refine ⟨w.write n val, by simp [patch, ho], ?_⟩
      rw [hlinks]
      exact ⟨by simp, fun _ _ => rfl, [], by simp, by simp, rfl⟩
    | some o =>
      have hlinks : links g n = g.send o := by simp [links, ho]
      rw [hlinks] at hk hreceive ⊢
      simpa [patch, ho] using sendLoop_spread (o := o) hk hreceive (w.write n val)
  obtain ⟨w₁, hw₁, hspread⟩ := hsend
  refine ⟨w₁.write n (w₁.members n), ?_, fun m hm => ?_, fun m hm => ?_, ?_⟩
  · simp [value, Patch.run, hgiven, hw₁]
  · have hown : w₁.members n = val := by
      by_cases hback : ∃ i ∈ links g n, Reaches g (nodeOf g i) n
      · exact hspread.reached n hback
      · rw [hspread.others n hback]
        simp [World.write]
    simp only [World.write, Function.update_eq_self]
    rcases reaches_iff.mp hm with rfl | hbehind
    exacts [hown, hspread.reached m hbehind]
  · have hne : m ≠ n := by
      rintro rfl
      exact hm .refl
    simp only [World.write, Function.update_eq_self]
    rw [hspread.others m fun hbehind => hm (reaches_iff.mpr (Or.inr hbehind))]
    simp [World.write, hne]
  · exact hspread.log

/-- One call deeper: `value` at a node, where the inlets behind it spread the value. -/
theorem run_spread_succ (hlinked : SlotGraph.Linked g)
    (hreceive : ∀ {i : SlotId} {slot : Slot T}, g.slots i = some slot →
      EndsWithin (Leads (links g) (nodeOf g)) fuel slot.node → ∀ w, ∃ w',
        (patch isNil g).receive fuel i val w = some w' ∧
          Spread val (Reaches g slot.node) (walks (links g) (nodeOf g) fuel slot.node).tail w w')
    (hends : EndsWithin (Leads (links g) (nodeOf g)) (fuel + 1) n)
    {given : V} (hgiven : updated isNil given (w.members n) = val) :
    ∃ w', (patch isNil g).run ((patch isNil g).receive fuel) n
        (value isNil given (w.members n)) w = some w' ∧
      Spread val (Reaches g n) (walks (links g) (nodeOf g) (fuel + 1) n).tail w w' := by
  refine run_spread (fun i hi => ?_) (fun i hi w => ?_) hgiven
  · have hnext := hends (nodeOf g i) ⟨i, hi, rfl⟩
    cases fuel with
    | zero => exact hnext.elim
    | succ fuel => exact Nat.succ_pos fuel
  · obtain ⟨slot, hslot⟩ := Option.isSome_iff_exists.mp (alive_of_links hlinked hi)
    have hnext := hends (nodeOf g i) ⟨i, hi, rfl⟩
    rw [nodeOf_eq hslot] at hnext ⊢
    exact hreceive hslot hnext w

/-- What an inlet does to the patch behind it, where the ways from its node end. -/
theorem receive_spread (hlinked : SlotGraph.Linked g) (hnil : isNil val = false) {slot : Slot T}
    (hslot : g.slots i = some slot)
    (hends : EndsWithin (Leads (links g) (nodeOf g)) fuel slot.node) (w : World V V) :
    ∃ w', (patch isNil g).receive fuel i val w = some w' ∧
      Spread val (Reaches g slot.node) (walks (links g) (nodeOf g) fuel slot.node).tail w w' := by
  induction fuel generalizing i slot w with
  | zero => exact hends.elim
  | succ fuel ih =>
    simp only [Patch.receive, show (patch isNil g).graph.slots i = some slot from hslot]
    exact run_spread_succ hlinked ih hends (updated_of_not_nil hnil _)

/-! ## A call that returns -/

theorem returned_of_sendLoop {receive : SlotId → V → World V V → Option (World V V)}
    {l : List SlotId} (h : Patch.sendLoop receive o val l w = some w') (hi : i ∈ l) :
    ∃ w₁ w₂, receive i val w₁ = some w₂ := by
  induction l generalizing w with
  | nil => cases hi
  | cons j l ih =>
    obtain ⟨w₁, hw₁, hrest⟩ := Option.bind_eq_some_iff.mp h
    rcases List.mem_cons.mp hi with rfl | hi
    exacts [⟨_, _, hw₁⟩, ih hrest hi]

/-- `value` only returns after every inlet behind the outlet has. -/
theorem returned_of_run {receive : SlotId → V → World V V → Option (World V V)} {value_ : V}
    (h : (patch isNil g).run receive n (value isNil val value_) w = some w')
    (hi : i ∈ links g n) : ∃ val w₁ w₂, receive i val w₁ = some w₂ := by
  obtain ⟨w₁, hw₁, -⟩ := Option.bind_eq_some_iff.mp h
  unfold links at hi
  split at hi
  · rename_i o ho
    rw [Patch.send, show (patch isNil g).graph.outletAt n 1 = some o from ho] at hw₁
    exact ⟨_, returned_of_sendLoop hw₁ hi⟩
  · cases hi

/-- One call deeper: what returns has ways behind it that end. -/
theorem endsWithin_succ
    (hreceive : ∀ {i : SlotId} {slot : Slot T} {val : V} {w w' : World V V},
      g.slots i = some slot → (patch isNil g).receive fuel i val w = some w' →
        EndsWithin (Leads (links g) (nodeOf g)) fuel slot.node) {value_ : V}
    (h : (patch isNil g).run ((patch isNil g).receive fuel) n (value isNil val value_) w =
      some w') : EndsWithin (Leads (links g) (nodeOf g)) (fuel + 1) n := by
  rintro _ ⟨i, hi, rfl⟩
  obtain ⟨val', w₁, w₂, hw⟩ := returned_of_run h hi
  cases hslot : g.slots i with
  | none =>
    cases fuel with
    | zero => cases hw
    | succ fuel =>
      simp [Patch.receive, show (patch isNil g).graph.slots i = none from hslot] at hw
  | some slot =>
    rw [nodeOf_eq hslot]
    exact hreceive hslot hw

/-- An inlet that returns has ways behind it that end, by induction on the depth of the
calls. -/
theorem endsWithin_of_receive {slot : Slot T} (hslot : g.slots i = some slot)
    (h : (patch isNil g).receive fuel i val w = some w') :
    EndsWithin (Leads (links g) (nodeOf g)) fuel slot.node := by
  induction fuel generalizing i slot val w w' with
  | zero => cases h
  | succ fuel ih =>
    simp only [Patch.receive, show (patch isNil g).graph.slots i = some slot from hslot] at h
    exact endsWithin_succ (fun hother hreturned => ih hother hreturned) h

/-- Every node that the value of `n` gets to is `n` or the node of a live inlet. -/
theorem finite_reaches (hlinked : SlotGraph.Linked g) (hfin : {s | (g.slots s).isSome}.Finite)
    (n : NodeId) : {m | Reaches g n m}.Finite := by
  refine ((hfin.image (nodeOf g)).insert n).subset fun m hm => ?_
  rcases Relation.ReflTransGen.cases_tail hm with rfl | ⟨k, -, i, hi, rfl⟩
  exacts [Or.inl rfl, Or.inr ⟨i, alive_of_links hlinked hi, rfl⟩]

/-- The ways with an edge are listed behind the one without. -/
theorem mem_tail_walks (hends : EndsWithin (Leads (links g) (nodeOf g)) (fuel + 1) n)
    (l : List SlotId) : l ∈ (walks (links g) (nodeOf g) (fuel + 1) n).tail ↔
      l ≠ [] ∧ IsWalk (links g) (nodeOf g) n l := by
  rw [← mem_walks_of_endsWithin hends]
  cases l with
  | nil => simp [walks]
  | cons i l => simp [walks]

/-- In every patch of value nodes that can be built: `value` at `n` returns exactly when
its value gets to no loop.  It then returns the value it kept, every node that this
value gets to has it and no other node has changed, and the deliveries are the ways from
`n` along the links, each way once. -/
theorem value_returns_iff {noType : T → Bool} {canReceive : T → T → Bool}
    {acts : List (SlotAction T)}
    (h : Run (StepOf (SlotGraph.step noType canReceive)) .empty acts g)
    {given : V} (hgiven : updated isNil given (w.members n) = val) (hnil : isNil val = false) :
    ((∃ fuel, (call isNil g fuel n given w).isSome) ↔ ¬ Loops g n) ∧
    ∀ fuel res w', call isNil g fuel n given w = some (res, w') → res = val ∧
      (∀ m, Reaches g n m → w'.members m = val) ∧
      (∀ m, ¬ Reaches g n m → w'.members m = w.members m) ∧
      ∃ (sent : List (Delivery V)) (ways : List (List SlotId)),
        w'.log = w.log ++ sent ∧ (∀ d ∈ sent, d.val = val) ∧ ways.Nodup ∧
        (∀ l, l ∈ ways ↔ l ≠ [] ∧ IsWalk (links g) (nodeOf g) n l) ∧
        sent.map (fun d => some d.inlet) = ways.map List.getLast? := by
  have hlinked := SlotGraph.Linked.of_run h
  have hfin := finite_reaches hlinked (SlotGraph.finite_slots h) n
  have hends_iff := endsWithin_iff_no_cycle_of_finite hfin
  have hforth : ∀ fuel, EndsWithin (Leads (links g) (nodeOf g)) (fuel + 1) n →
      ∃ w', call isNil g fuel n given w = some (val, w') ∧
        Spread val (Reaches g n) (walks (links g) (nodeOf g) (fuel + 1) n).tail w w' := by
    intro fuel hends
    obtain ⟨w', hw', hspread⟩ := run_spread_succ hlinked
      (fun hslot hnext w => receive_spread hlinked hnil hslot hnext w) hends hgiven
    refine ⟨w', ?_, hspread⟩
    simp [call, hw', hspread.reached n .refl]
  have hback : ∀ fuel, (call isNil g fuel n given w).isSome →
      EndsWithin (Leads (links g) (nodeOf g)) (fuel + 1) n := by
    intro fuel hsome
    obtain ⟨⟨res, w'⟩, hcall⟩ := Option.isSome_iff_exists.mp hsome
    obtain ⟨w₁, hw₁, -⟩ := Option.bind_eq_some_iff.mp hcall
    exact endsWithin_succ (fun hslot hw => endsWithin_of_receive hslot hw) hw₁
  refine ⟨⟨fun ⟨fuel, hsome⟩ => hends_iff.mp ⟨_, hback fuel hsome⟩, fun hloop => ?_⟩, ?_⟩
  · obtain ⟨fuel, hends⟩ := hends_iff.mpr hloop
    obtain ⟨w', hw', -⟩ := hforth fuel hends.succ
    exact ⟨fuel, by simp [hw']⟩
  · intro fuel res w' hcall
    have hends := hback fuel (by simp [hcall])
    obtain ⟨w₁, hw₁, hspread⟩ := hforth fuel hends
    rw [hw₁] at hcall
    obtain ⟨rfl, rfl⟩ := Prod.mk.inj (Option.some.inj hcall)
    obtain ⟨sent, hlog, hval, hways⟩ := hspread.log
    refine ⟨rfl, hspread.reached, hspread.others, sent, _, hlog, hval, ?_, ?_, hways⟩
    · exact (nodup_walks (nodup_links hlinked) _ _).tail
    · exact mem_tail_walks hends

/-- A node that feeds another; with `closed` that one feeds the first. -/
def twoNodes (closed : Bool) : List (SlotAction Unit) :=
  [.newNode 0, .newNode 1, .newSlot .inlet 10 0 (), .newSlot .outlet 11 0 (),
    .newSlot .inlet 12 1 (), .newSlot .outlet 13 1 (), .connect 11 12] ++
    if closed then [.connect 13 10] else []

theorem value_returns_iff_twoNodes :
    (∃ w', call (fun n : Nat => n == 0) (Patch.built (twoNodes false)) 1 0 7 ⟨fun _ => 0, []⟩ =
      some (7, w') ∧ w'.members 1 = 7) ∧
    ¬ ∃ fuel, (call (fun n : Nat => n == 0) (Patch.built (twoNodes true)) fuel 0 7
      ⟨fun _ => 0, []⟩).isSome := by
  have hopen : Run (StepOf (SlotGraph.step (fun _ => false) fun _ _ => true)) .empty
      (twoNodes false) (Patch.built (twoNodes false)) := Run.of_foldlM rfl
  have hclosed : Run (StepOf (SlotGraph.step (fun _ => false) fun _ _ => true)) .empty
      (twoNodes true) (Patch.built (twoNodes true)) := Run.of_foldlM rfl
  refine ⟨?_, fun hreturns => ?_⟩
  · have hgiven : updated (fun n : Nat => n == 0) 7 ((⟨fun _ => 0, []⟩ : World Nat Nat).members 0) =
        7 := rfl
    obtain ⟨-, hspread⟩ := value_returns_iff hopen hgiven rfl
    obtain ⟨-, hreached, -⟩ := hspread 1 7 _ rfl
    exact ⟨_, rfl, hreached 1 (.single ⟨12, by decide, rfl⟩)⟩
  · refine (value_returns_iff hclosed rfl rfl).1.mp hreturns ⟨0, .refl, ?_⟩
    exact .tail (.single ⟨12, by decide, rfl⟩) ⟨10, by decide, rfl⟩

end ValueNode

end Rubyk
