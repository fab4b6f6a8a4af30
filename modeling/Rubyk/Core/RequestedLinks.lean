/-
  Core/RequestedLinks.lean --- links that stay, while a planet grows.

  A request whose two urls lead somewhere is carried out at once, and what it linked
  stays linked for as long as nothing unlinks it.  A request that comes too early is
  kept, and carried out by the first `create_pending_links` after both its ends exist.
  So it does not matter when a link is asked for.  No other links are made than those
  that were asked for (`Connects`).

  THE TREE.  Creating an object is assumed to leave what is there alone: urls that lead
  somewhere lead to the same slots, and no link is lost (`Extends`).
-/
import Rubyk.Core.LinkAlgebra
import Rubyk.Core.LinkTargets

set_option autoImplicit false

namespace Rubyk

namespace SlotGraph

variable {T : Type} {o : Oscit T} {g g' : SlotGraph T} {s t : SlotId}

/-- Every link is still there. -/
def KeepsLinks (g g' : SlotGraph T) : Prop := ∀ s t, t ∈ g.connections s → t ∈ g'.connections s

theorem KeepsLinks.trans {g'' : SlotGraph T} (h : KeepsLinks g g') (h' : KeepsLinks g' g'') :
    KeepsLinks g g'' := fun s t ht => h' s t (h s t ht)

theorem keepsLinks_connect (hst : s ≠ t) :
    KeepsLinks g (connect o.noType o.canReceive g s t).2 := by
  intro u v hv
  cases hs : g.slots s with
  | none => simpa [connect, addConnection, hs] using hv
  | some slot =>
    cases ht : g.slots t with
    | none => simpa [connect, addConnection, hs, ht] using hv
    | some other =>
      rw [connect_eq hst hs ht]
      split
      · rw [connections_connect hst hs ht]
        split
        · exact OrderedList.mem_push.mpr (Or.inr hv)
        · split
          · exact OrderedList.mem_push.mpr (Or.inr hv)
          · exact hv
      · exact hv

theorem mem_connect (hst : s ≠ t) (h : accepts o g s t = true) :
    t ∈ (connect o.noType o.canReceive g s t).2.connections s := by
  unfold accepts at h
  split at h
  · rename_i slot other hs ht
    rw [connect_eq hst hs ht, if_pos h, connections_connect hst hs ht, if_pos rfl]
    exact OrderedList.mem_push.mpr (Or.inl rfl)
  · cases h

theorem SameKeys.accepts (h : SameKeys g g') (s t : SlotId) :
    SlotGraph.accepts o g' s t = SlotGraph.accepts o g s t := by
  rw [accepts_eq, accepts_eq]
  exact h.connect_fst _ _ s t

/-- A slot is not linked with itself: the cast wants the other kind. -/
theorem ne_of_castTarget {root : Root} {x : ObjectId} (h : castTarget root g s x = some t) :
    s ≠ t := by
  rintro rfl
  have hkind := (Option.filter_eq_some_iff.mp h).2
  unfold wantedKind at hkind
  split at hkind
  · rename_i hout
    exact absurd (isKind_unique hout hkind) (by decide)
  · rename_i hout
    exact hout hkind

/-- Making a link, or being refused, loses no link. -/
theorem keepsLinks_changeLink (root : Root) (s : ObjectId) (val : String) :
    KeepsLinks g (g.changeLink o root s .create val).2 := by
  unfold changeLink
  split
  · exact fun _ _ h => h
  · rename_i x _
    split
    · exact fun _ _ h => h
    · rename_i t ht
      split
      · rename_i hkind
        have hcast : castTarget root g s x = some t := by simp [castTarget, ht, hkind]
        have hne : s ≠ t := ne_of_castTarget hcast
        have hkeeps := keepsLinks_connect (o := o) (g := g) hne
        rcases hc : connect o.noType o.canReceive g s t with ⟨_ | _, g'⟩ <;>
          simpa [hc] using hkeeps
      · exact fun _ _ h => h

end SlotGraph

namespace Planet

open SlotGraph

variable {T : Type} {o : Oscit T} {p q : Planet T} {val entry : LinkValue} {res : LinkAnswer}

/-- The slot that a request links from: the object itself, or its first outlet. -/
def sourceSlot (root : Root) (g : SlotGraph T) (x : ObjectId) : Option SlotId :=
  if g.isSlot x then some x else ((root.child x "out").bind root.firstChild).filter g.isSlot

/-- The two slots that a request links. -/
def ends (p : Planet T) (val : LinkValue) : Option (SlotId × SlotId) :=
  (p.root.objectAt val.source).bind fun source =>
    (p.root.objectAt val.target).bind fun target =>
      (sourceSlot p.root p.graph source).bind fun s =>
        (castTarget p.root p.graph s target).map fun t => (s, t)

/-- What the request asks for is done, unless the types do not allow it. -/
def Made (o : Oscit T) (p : Planet T) (val : LinkValue) : Prop :=
  ∀ s t, p.ends val = some (s, t) → accepts o p.graph s t = true → t ∈ p.graph.connections s

/-- The planet has grown: what a request stands for, and what is linked, has stayed. -/
structure Extends (p q : Planet T) : Prop where
  resolves : ∀ val, p.resolves val = true → q.resolves val = true ∧ q.ends val = p.ends val
  slots : ∀ s slot, p.graph.slots s = some slot →
    (q.graph.slots s).map Slot.key = some slot.key
  keepsLinks : KeepsLinks p.graph q.graph

/-! ## What stays -/

theorem isSlot_of_sourceSlot {root : Root} {g : SlotGraph T} {x : ObjectId} {s : SlotId}
    (h : sourceSlot root g x = some s) : g.isSlot s = true := by
  unfold sourceSlot at h
  split at h
  · rename_i hx
    obtain rfl := Option.some.inj h
    exact hx
  · exact (Option.filter_eq_some_iff.mp h).2

theorem ends_eq_some {s t : SlotId} : p.ends val = some (s, t) ↔
    ∃ source target, p.root.objectAt val.source = some source ∧
      p.root.objectAt val.target = some target ∧
      sourceSlot p.root p.graph source = some s ∧
      castTarget p.root p.graph s target = some t := by
  unfold ends
  simp only [Option.bind_eq_some_iff, Option.map_eq_some_iff, Prod.mk.injEq]
  constructor
  · rintro ⟨source, hsource, target, htarget, s', hs, t', ht, rfl, rfl⟩
    exact ⟨source, target, hsource, htarget, hs, ht⟩
  · rintro ⟨source, target, hsource, htarget, hs, ht⟩
    exact ⟨source, hsource, target, htarget, s, hs, t, ht, rfl, rfl⟩

/-- A request only links slots that are alive. -/
theorem alive_of_ends {s t : SlotId} (h : p.ends val = some (s, t)) :
    (p.graph.slots s).isSome ∧ (p.graph.slots t).isSome := by
  obtain ⟨source, target, -, -, hs, ht⟩ := ends_eq_some.mp h
  exact ⟨isSlot_of_sourceSlot hs, isSlot_of_isKind (Option.filter_eq_some_iff.mp ht).2⟩

theorem SameObjects.ends (h : SameObjects p q) (val : LinkValue) : q.ends val = p.ends val := by
  have hisSlot : q.graph.isSlot = p.graph.isSlot := funext h.keys.isSlot
  have hkind : q.graph.isKind = p.graph.isKind := by
    funext kind s
    exact h.keys.isKind kind s
  simp only [Planet.ends, sourceSlot, castTarget, h.root, hisSlot, hkind, h.keys.linkTarget,
    h.keys.wantedKind]

/-- A link that is made stays while no object changes and no link is lost. -/
theorem Made.of_same (h : Made o p val) (hsame : SameObjects p q)
    (hkeeps : KeepsLinks p.graph q.graph) : Made o q val := by
  intro s t hends haccepts
  rw [hsame.ends] at hends
  rw [hsame.keys.accepts] at haccepts
  exact hkeeps s t (h s t hends haccepts)

/-- It stays when the planet grows. -/
theorem Made.of_extends (h : Made o p val) (hres : p.resolves val = true)
    (hext : Extends p q) : Made o q val := by
  intro s t hends haccepts
  rw [(hext.resolves val hres).2] at hends
  obtain ⟨hs, ht⟩ := alive_of_ends hends
  obtain ⟨slot, hslot⟩ := Option.isSome_iff_exists.mp hs
  obtain ⟨other, hother⟩ := Option.isSome_iff_exists.mp ht
  obtain ⟨slot', hslot', hkey⟩ := Option.map_eq_some_iff.mp (hext.slots s slot hslot)
  obtain ⟨other', hother', hkey'⟩ := Option.map_eq_some_iff.mp (hext.slots t other hother)
  refine hext.keepsLinks s t (h s t hends ?_)
  simp only [accepts, hslot', hother'] at haccepts
  simp only [accepts, hslot, hother]
  simpa [compatible, Slot.kind_of_key hkey, Slot.kind_of_key hkey', Slot.type_of_key hkey,
    Slot.type_of_key hkey'] using haccepts

/-! ## What a request does -/

/-- The slot that was found is linked with the one the target stands for. -/
theorem changeLink_makes {source target : ObjectId} {s : SlotId} (hop : val.op ≠ "||")
    (hsource : p.root.objectAt val.source = some source)
    (htarget : p.root.objectAt val.target = some target)
    (hs : sourceSlot p.root p.graph source = some s) :
    KeepsLinks p.graph (p.changeLink o s val).2.graph ∧ Made o (p.changeLink o s val).2 val := by
  have hcreate : (if val.op = "||" then LinkOperation.disconnect else .create) = .create :=
    if_neg hop
  have hgraph : (p.changeLink o s val).2.graph =
      (p.graph.changeLink o p.root s .create val.target).2 := by
    simp only [Planet.changeLink, hcreate]
  refine ⟨hgraph ▸ keepsLinks_changeLink p.root s val.target, fun s' t hends haccepts => ?_⟩
  have hsame := sameObjects_changeLink o p s val
  rw [hsame.ends] at hends
  rw [hsame.keys.accepts] at haccepts
  obtain ⟨source', target', hsource', htarget', hs', ht⟩ := ends_eq_some.mp hends
  obtain rfl := Option.some.inj (hsource.symm.trans hsource')
  obtain rfl := Option.some.inj (htarget.symm.trans htarget')
  obtain rfl := Option.some.inj (hs.symm.trans hs')
  have hacts : Acts o p.root p.graph s .create _ _ := changeLink_acts htarget
  rw [ht] at hacts
  simp only [Acts, ActsOn, haccepts, if_true] at hacts
  rw [hgraph, hacts]
  exact mem_connect (ne_of_castTarget ht) haccepts

/-- A request for a link, tried or kept, loses no link, and is done when its urls lead
somewhere. -/
theorem link_makes (hop : val.op ≠ "||") (h : p.link o val = .ok (res, q)) :
    KeepsLinks p.graph q.graph ∧ (p.resolves val = true → Made o q val) := by
  have hsame := sameObjects_link h
  cases hres : p.resolves val with
  | false =>
    rw [link_of_not_resolves hres] at h
    refine ⟨?_, by simp⟩
    split at h
    · cases h
      exact fun _ _ ht => ht
    · cases h
      exact fun _ _ ht => ht
  | true =>
    unfold resolves at hres
    obtain ⟨source, hsource⟩ := Option.isSome_iff_exists.mp (Bool.and_eq_true_iff.mp hres).1
    obtain ⟨target, htarget⟩ := Option.isSome_iff_exists.mp (Bool.and_eq_true_iff.mp hres).2
    simp only [link, hsource, htarget] at h
    cases hslot : p.graph.isSlot source with
    | true =>
      rw [if_pos hslot, Except.ok.injEq] at h
      obtain rfl : (p.changeLink o source val).2 = q := congrArg Prod.snd h
      have hs : sourceSlot p.root p.graph source = some source := by simp [sourceSlot, hslot]
      exact (changeLink_makes hop hsource htarget hs).imp id fun hmade _ => hmade
    | false =>
      rw [hslot, if_neg Bool.false_ne_true] at h
      cases hout : (p.root.child source "out").bind p.root.firstChild with
      | none =>
        rw [hout] at h
        cases h
        refine ⟨fun _ _ ht => ht, fun _ s t hends => ?_⟩
        -- without an outlet nothing is asked for
        obtain ⟨source', -, hsource', -, hs, -⟩ := ends_eq_some.mp hends
        obtain rfl := Option.some.inj (hsource.symm.trans hsource')
        simp [sourceSlot, hslot, hout] at hs
      | some object =>
        simp only [hout] at h
        split at h
        · rename_i hobject
          rw [Except.ok.injEq] at h
          obtain rfl : (p.changeLink o object val).2 = q := congrArg Prod.snd h
          have hs : sourceSlot p.root p.graph source = some object := by
            simp [sourceSlot, hslot, hout, hobject]
          exact (changeLink_makes hop hsource htarget hs).imp id fun hmade _ => hmade
        · cases h

/-! ## What `create_pending_links` does -/

theorem mem_eraseIdx_or {α : Type} {l : List α} {i : Nat} {x y : α} (hx : l[i]? = some x)
    (hy : y ∈ l) : y = x ∨ y ∈ l.eraseIdx i := by
  obtain ⟨j, hj⟩ := List.mem_iff_getElem?.mp hy
  by_cases hij : i = j
  · subst hij
    exact Or.inl (Option.some.inj (hj.symm.trans hx))
  · exact Or.inr (List.mem_eraseIdx_iff_getElem?.mpr ⟨j, Ne.symm hij, hj⟩)

/-- The loop loses no link, and an entry that it takes off the list is done. -/
theorem createPendingLinksFrom_makes (fuel : Nat) :
    ∀ (p : Planet T) (it : Nat) (list : List LinkAnswer) {answers : List LinkAnswer},
      Pending p.pendingLinks → createPendingLinksFrom o fuel it list p = .ok (answers, q) →
      SameObjects p q ∧ KeepsLinks p.graph q.graph ∧
        ∀ entry ∈ p.pendingLinks,
          entry ∈ q.pendingLinks ∨ q.resolves entry = true ∧ Made o q entry := by
  induction fuel with
  | zero =>
    intro p it list answers _ h
    unfold createPendingLinksFrom at h
    split at h
    · cases h
    · cases h
      exact ⟨.refl _, fun _ _ ht => ht, fun entry he => Or.inl he⟩
  | succ fuel ih =>
    intro p it list answers hpending h
    rw [createPendingLinksFrom] at h
    cases hget : p.pendingLinks[it]? with
    | none =>
      simp only [hget] at h
      cases h
      exact ⟨.refl _, fun _ _ ht => ht, fun entry he => Or.inl he⟩
    | some entry =>
      have hop : entry.op = "?" := hpending entry (List.mem_of_getElem? hget)
      cases hlink : p.link o entry with
      | error fault => simp [hget, hlink] at h
      | ok result =>
        obtain ⟨res, p'⟩ := result
        simp only [hget, hlink] at h
        have hsame := sameObjects_link hlink
        obtain ⟨hkeeps, hmade⟩ := link_makes (by simp [hop]) hlink
        have hpend : p'.pendingLinks = p.pendingLinks := by
          cases hres : p.resolves entry with
          | true => exact (pendingLinks_link hres hlink).1
          | false =>
            rw [link_pending hop hres] at hlink
            cases hlink
            rfl
        split at h
        · rename_i hsettled
          have hres : p.resolves entry = true := by
            by_contra hres
            rw [link_pending hop (by simpa using hres)] at hlink
            cases hlink
            simp [isSettled, hop] at hsettled
          have herase : (p'.erasePending it ⟨entry, res⟩).pendingLinks =
              p.pendingLinks.eraseIdx it := by simp [erasePending, hpend]
          obtain ⟨hsame', hkeeps', hrest⟩ := ih _ it _ (by
            rw [herase]
            exact fun e he => hpending e ((List.eraseIdx_sublist _ it).subset he)) h
          -- taking the entry off the list leaves the tree and the slots of `p'`
          have hsame'' : SameObjects p' q := ⟨hsame'.root, hsame'.keys⟩
          refine ⟨⟨hsame'.root.trans hsame.root, hsame.keys.trans hsame'.keys⟩,
            hkeeps.trans hkeeps', fun e he => ?_⟩
          rw [herase] at hrest
          rcases mem_eraseIdx_or hget he with rfl | he
          · refine Or.inr ⟨?_, (hmade hres).of_same hsame'' hkeeps'⟩
            rw [hsame''.resolves, hsame.resolves, hres]
          · exact hrest e he
        · obtain ⟨hsame', hkeeps', hrest⟩ := ih p' (it + 1) _ (by rwa [hpend]) h
          refine ⟨⟨hsame'.root.trans hsame.root, hsame.keys.trans hsame'.keys⟩,
            hkeeps.trans hkeeps', ?_⟩
          rwa [hpend] at hrest

/-- Retrying keeps the entries whose urls do not lead anywhere yet, and the others are
done. -/
theorem createPendingLinks_makes (hpending : Pending p.pendingLinks)
    (hnull : ∀ entry ∈ p.pendingLinks, p.reachesNullSlot entry = false) :
    ∃ answers q, p.createPendingLinks o = .ok (answers, q) ∧ SameObjects p q ∧
      KeepsLinks p.graph q.graph ∧
      q.pendingLinks = p.pendingLinks.filter (fun entry => !p.resolves entry) ∧
      ∀ entry ∈ p.pendingLinks, q.resolves entry = true → Made o q entry := by
  obtain ⟨g', -, hok⟩ := createPendingLinks_eq o hpending hnull
  obtain ⟨hsame, hkeeps, hmade⟩ := createPendingLinksFrom_makes _ p 0 [] hpending hok
  refine ⟨_, _, hok, hsame, hkeeps, rfl, fun entry he hres => ?_⟩
  rcases hmade entry he with hkept | ⟨-, hdone⟩
  · have hunresolved := (List.mem_filter.mp hkept).2
    rw [hsame.resolves] at hres
    simp [hres] at hunresolved
  · exact hdone

/-! ## No other links -/

/-- The request asks for the link of these two slots, and their types allow it. -/
structure Asks (o : Oscit T) (p : Planet T) (val : LinkValue) (s t : SlotId) : Prop where
  ends : p.ends val = some (s, t)
  accepts : accepts o p.graph s t = true

theorem SameObjects.asks (h : SameObjects p q) {s t : SlotId} :
    q.Asks o val s t ↔ p.Asks o val s t := by
  constructor
  · rintro ⟨hends, haccepts⟩
    exact ⟨(h.ends val).symm.trans hends, (h.keys.accepts s t).symm.trans haccepts⟩
  · rintro ⟨hends, haccepts⟩
    exact ⟨(h.ends val).trans hends, (h.keys.accepts s t).trans haccepts⟩

theorem Asks.resolves {s t : SlotId} (h : p.Asks o val s t) : p.resolves val = true := by
  obtain ⟨source, target, hsource, htarget, -⟩ := ends_eq_some.mp h.ends
  simp [Planet.resolves, hsource, htarget]

/-- What is asked for is asked for when the planet has grown. -/
theorem Asks.of_extends {s t : SlotId} (h : p.Asks o val s t) (hext : Extends p q) :
    q.Asks o val s t := by
  obtain ⟨hs, ht⟩ := alive_of_ends h.ends
  obtain ⟨slot, hslot⟩ := Option.isSome_iff_exists.mp hs
  obtain ⟨other, hother⟩ := Option.isSome_iff_exists.mp ht
  obtain ⟨slot', hslot', hkey⟩ := Option.map_eq_some_iff.mp (hext.slots s slot hslot)
  obtain ⟨other', hother', hkey'⟩ := Option.map_eq_some_iff.mp (hext.slots t other hother)
  refine ⟨(hext.resolves val h.resolves).2.trans h.ends, ?_⟩
  have haccepts := h.accepts
  simp only [SlotGraph.accepts, hslot, hother] at haccepts
  simp only [SlotGraph.accepts, hslot', hother']
  simpa [compatible, Slot.kind_of_key hkey, Slot.kind_of_key hkey', Slot.type_of_key hkey,
    Slot.type_of_key hkey'] using haccepts

end Planet

namespace SlotGraph

variable {T : Type} {o : Oscit T} {P : SlotId → SlotId → Prop} {g g' g'' : SlotGraph T}
  {s t : SlotId}

/-- Links are made, all of them such as `P` says. -/
inductive Connects (o : Oscit T) (P : SlotId → SlotId → Prop) (g : SlotGraph T) :
    SlotGraph T → Prop
  | refl : Connects o P g g
  | connect {g' : SlotGraph T} {s t : SlotId} : Connects o P g g' → s ≠ t → P s t →
      Connects o P g (connect o.noType o.canReceive g' s t).2

namespace Connects

theorem trans (h : Connects o P g g') (h' : Connects o P g' g'') : Connects o P g g'' := by
  induction h' with
  | refl => exact h
  | connect _ hst hp ih => exact ih.connect hst hp

theorem mono {Q : SlotId → SlotId → Prop} (h : Connects o P g g') (hpq : ∀ s t, P s t → Q s t) :
    Connects o Q g g' := by
  induction h with
  | refl => exact .refl
  | connect _ hst hp ih => exact ih.connect hst (hpq _ _ hp)

theorem keepsLinks (h : Connects o P g g') : KeepsLinks g g' := by
  induction h with
  | refl => exact fun _ _ ht => ht
  | connect _ hst _ ih => exact ih.trans (keepsLinks_connect hst)

theorem linked (h : Connects o P g g') (hlinked : Linked g) : Linked g' := by
  induction h with
  | refl => exact hlinked
  | connect _ hst _ ih => exact ih.connect hst

theorem mem (h : Connects o P g g') (ht : t ∈ g'.connections s) :
    t ∈ g.connections s ∨ P s t ∨ P t s := by
  induction h with
  | refl => exact Or.inl ht
  | @connect g' u v _ huv hp ih =>
    cases hu : g'.slots u with
    | none => exact ih (by simpa [SlotGraph.connect, addConnection, hu] using ht)
    | some slot =>
      cases hv : g'.slots v with
      | none => exact ih (by simpa [SlotGraph.connect, addConnection, hu, hv] using ht)
      | some other =>
        rw [connect_eq huv hu hv] at ht
        split at ht
        · rw [connections_connect huv hu hv] at ht
          split at ht
          · rename_i hsu
            subst hsu
            exact (OrderedList.mem_push.mp ht).elim (fun htv => Or.inr (Or.inl (htv ▸ hp))) ih
          · split at ht
            · rename_i hsv
              subst hsv
              exact (OrderedList.mem_push.mp ht).elim (fun htu => Or.inr (Or.inr (htu ▸ hp))) ih
            · exact ih ht
        · exact ih ht

end Connects

end SlotGraph

namespace Planet

open SlotGraph

variable {T : Type} {o : Oscit T} {p q : Planet T} {val entry : LinkValue} {res : LinkAnswer}

/-- The slot that was found is linked with the one the target stands for, or with none. -/
theorem changeLink_connects {source target : ObjectId} {s : SlotId} (hop : val.op ≠ "||")
    (hsource : p.root.objectAt val.source = some source)
    (htarget : p.root.objectAt val.target = some target)
    (hs : sourceSlot p.root p.graph source = some s) :
    Connects o (p.Asks o val) p.graph (p.changeLink o s val).2.graph := by
  have hcreate : (if val.op = "||" then LinkOperation.disconnect else .create) = .create :=
    if_neg hop
  have hgraph : (p.changeLink o s val).2.graph =
      (p.graph.changeLink o p.root s .create val.target).2 := by
    simp only [Planet.changeLink, hcreate]
  rw [hgraph]
  cases ht : linkTarget p.root p.graph target with
  | none =>
    simp only [SlotGraph.changeLink, htarget, ht]
    exact .refl
  | some t =>
    cases hkind : p.graph.isKind (p.graph.wantedKind s) t with
    | false =>
      simp only [SlotGraph.changeLink, htarget, ht, hkind, Bool.false_eq_true, if_false]
      exact .refl
    | true =>
      have hcast : castTarget p.root p.graph s target = some t := by simp [castTarget, ht, hkind]
      have hends : p.ends val = some (s, t) := ends_eq_some.mpr ⟨_, _, hsource, htarget, hs, hcast⟩
      simp only [SlotGraph.changeLink, htarget, ht, hkind, if_true]
      cases haccepts : accepts o p.graph s t with
      | false =>
        simp only [connect_of_not_accepts haccepts]
        exact .refl
      | true =>
        have hstep : Connects o (p.Asks o val) p.graph
            (connect o.noType o.canReceive p.graph s t).2 :=
          Connects.refl.connect (ne_of_castTarget hcast) ⟨hends, haccepts⟩
        rcases hc : connect o.noType o.canReceive p.graph s t with ⟨_ | _, g'⟩ <;>
          simpa only [hc] using hstep

/-- A request makes no other link than the one it asks for. -/
theorem link_connects (hop : val.op ≠ "||") (h : p.link o val = .ok (res, q)) :
    Connects o (p.Asks o val) p.graph q.graph := by
  cases hres : p.resolves val with
  | false =>
    rw [link_of_not_resolves hres] at h
    split at h
    · cases h
      exact .refl
    · cases h
      exact .refl
  | true =>
    unfold resolves at hres
    obtain ⟨source, hsource⟩ := Option.isSome_iff_exists.mp (Bool.and_eq_true_iff.mp hres).1
    obtain ⟨target, htarget⟩ := Option.isSome_iff_exists.mp (Bool.and_eq_true_iff.mp hres).2
    simp only [link, hsource, htarget] at h
    cases hslot : p.graph.isSlot source with
    | true =>
      rw [if_pos hslot, Except.ok.injEq] at h
      obtain rfl : (p.changeLink o source val).2 = q := congrArg Prod.snd h
      exact changeLink_connects hop hsource htarget (by simp [sourceSlot, hslot])
    | false =>
      rw [hslot, if_neg Bool.false_ne_true] at h
      cases hout : (p.root.child source "out").bind p.root.firstChild with
      | none =>
        rw [hout] at h
        cases h
        exact .refl
      | some object =>
        simp only [hout] at h
        split at h
        · rename_i hobject
          rw [Except.ok.injEq] at h
          obtain rfl : (p.changeLink o object val).2 = q := congrArg Prod.snd h
          exact changeLink_connects hop hsource htarget
            (by simp [sourceSlot, hslot, hout, hobject])
        · cases h

/-- Retrying makes no other links than those that were kept. -/
theorem createPendingLinksFrom_connects (fuel : Nat) :
    ∀ (p : Planet T) (it : Nat) (list : List LinkAnswer) {answers : List LinkAnswer},
      Pending p.pendingLinks → createPendingLinksFrom o fuel it list p = .ok (answers, q) →
      Connects o (fun s t => ∃ entry ∈ p.pendingLinks, p.Asks o entry s t) p.graph q.graph := by
  induction fuel with
  | zero =>
    intro p it list answers _ h
    unfold createPendingLinksFrom at h
    split at h
    · cases h
    · cases h
      exact .refl
  | succ fuel ih =>
    intro p it list answers hpending h
    rw [createPendingLinksFrom] at h
    cases hget : p.pendingLinks[it]? with
    | none =>
      simp only [hget] at h
      cases h
      exact .refl
    | some entry =>
      have hmem := List.mem_of_getElem? hget
      have hop : entry.op = "?" := hpending entry hmem
      cases hlink : p.link o entry with
      | error fault => simp [hget, hlink] at h
      | ok result =>
        obtain ⟨res, p'⟩ := result
        simp only [hget, hlink] at h
        have hsame := sameObjects_link hlink
        have hpend : p'.pendingLinks = p.pendingLinks := by
          cases hres : p.resolves entry with
          | true => exact (pendingLinks_link hres hlink).1
          | false =>
            rw [link_pending hop hres] at hlink
            cases hlink
            rfl
        have hfirst : Connects o (fun s t => ∃ e ∈ p.pendingLinks, p.Asks o e s t) p.graph
            p'.graph :=
          (link_connects (by simp [hop]) hlink).mono fun s t hasks => ⟨entry, hmem, hasks⟩
        split at h
        · have herase : (p'.erasePending it ⟨entry, res⟩).pendingLinks =
              p.pendingLinks.eraseIdx it := by simp [erasePending, hpend]
          have hsub := (List.eraseIdx_sublist p.pendingLinks it).subset
          have hrest := ih _ it _ (by
            rw [herase]
            exact fun e he => hpending e (hsub he)) h
          rw [herase] at hrest
          -- what is asked for later is asked for now
          refine hfirst.trans (hrest.mono ?_)
          rintro s t ⟨e, he, hasks⟩
          exact ⟨e, hsub he, hsame.asks.mp ⟨hasks.ends, hasks.accepts⟩⟩
        · have hrest := ih p' (it + 1) _ (by rwa [hpend]) h
          rw [hpend] at hrest
          refine hfirst.trans (hrest.mono ?_)
          rintro s t ⟨e, he, hasks⟩
          exact ⟨e, he, hsame.asks.mp hasks⟩

end Planet

end Rubyk
