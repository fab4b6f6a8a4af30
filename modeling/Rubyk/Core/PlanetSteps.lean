/-
  Core/PlanetSteps.lean --- what one call of `/rubyk/link` does.

  A kept entry has the operator `?`, so trying it again never adds an entry, and it
  leaves the keys of all slots alone.  So the answers do not depend on the order of
  the loop, and `create_pending_links` comes down to one filter
  (`createPendingLinks_eq`) -- unless one of the entries reaches the null slot.
-/
import Rubyk.Core.Planet

set_option autoImplicit false

namespace Rubyk

/-! ## Linking changes no key -/

namespace SlotGraph

variable {T : Type} {g g' : SlotGraph T} {s t : SlotId}

theorem SameKeys.isSlot (h : SameKeys g g') (s : ObjectId) : g'.isSlot s = g.isSlot s :=
  h.isSome s

theorem SameKeys.isKind (h : SameKeys g g') (kind : SlotKind) (s : ObjectId) :
    g'.isKind kind s = g.isKind kind s := by
  have hkind := h.kindOf s
  unfold SlotGraph.isKind
  cases hs : g.slots s <;> cases hs' : g'.slots s <;> simp_all [SlotGraph.kindOf]

theorem SameKeys.wantedKind (h : SameKeys g g') (s : ObjectId) :
    g'.wantedKind s = g.wantedKind s := by
  simp [SlotGraph.wantedKind, h.isKind]

theorem SameKeys.linkTarget (h : SameKeys g g') (root : Root) (target : ObjectId) :
    g'.linkTarget root target = g.linkTarget root target := by
  simp [SlotGraph.linkTarget, h.isSlot]

variable (noType : T → Bool) (canReceive : T → T → Bool)

/-- `connect` answers by the types of the two slots. -/
theorem connect_fst (g : SlotGraph T) (s t : SlotId) :
    (connect noType canReceive g s t).1 =
      match g.slots s, g.slots t with
      | some slot, some other => compatible noType canReceive slot other
      | _, _ => false := by
  unfold connect
  cases hs : g.slots s with
  | none => simp [addConnection, hs]
  | some slot =>
    cases ht : g.slots t with
    | none => simp [addConnection, hs, ht]
    | some other =>
      cases hc : compatible noType canReceive slot other <;> simp [addConnection, hs, ht, hc]

theorem SameKeys.connect_fst (h : SameKeys g g') (s t : SlotId) :
    (connect noType canReceive g' s t).1 = (connect noType canReceive g s t).1 := by
  rw [SlotGraph.connect_fst, SlotGraph.connect_fst]
  have hs := h.slots s
  have ht := h.slots t
  cases hsg : g.slots s <;> cases hsg' : g'.slots s <;> rw [hsg, hsg'] at hs <;>
    cases htg : g.slots t <;> cases htg' : g'.slots t <;> rw [htg, htg'] at ht <;>
    simp_all only [Option.map_none, Option.map_some, Option.some.injEq, reduceCtorEq]
  simp only [compatible, Slot.kind_of_key hs, Slot.kind_of_key ht, Slot.type_of_key hs,
    Slot.type_of_key ht]

variable {noType canReceive}

theorem sameKeys_changeLink (o : Oscit T) (root : Root) (g : SlotGraph T) (s : ObjectId)
    (operation : LinkOperation) (val : String) :
    SameKeys g (g.changeLink o root s operation val).2 := by
  unfold changeLink
  split
  · exact SameKeys.refl g
  · split
    · exact SameKeys.refl g
    · rename_i target _
      split
      · cases operation with
        | create =>
          have hconnect := sameKeys_connect o.noType o.canReceive g s target
          rcases hc : connect o.noType o.canReceive g s target with ⟨_ | _, g'⟩ <;>
            simpa [hc] using hconnect
        | disconnect => exact sameKeys_disconnect
      · exact SameKeys.refl g

/-- Whether a link can be made, and what is answered, depends on keys only. -/
theorem SameKeys.changeLink_fst (h : SameKeys g g') (o : Oscit T) (root : Root)
    (s : ObjectId) (operation : LinkOperation) (val : String) :
    (g'.changeLink o root s operation val).1 = (g.changeLink o root s operation val).1 := by
  unfold changeLink
  cases root.objectAt val with
  | none => rfl
  | some object =>
    simp only [h.linkTarget, h.wantedKind, h.isKind]
    cases g.linkTarget root object with
    | none => rfl
    | some target =>
      simp only
      split
      · cases operation with
        | create =>
          have hflag := h.connect_fst o.noType o.canReceive s target
          rcases hc : connect o.noType o.canReceive g s target with ⟨_ | _, g₁⟩ <;>
            rcases hc' : connect o.noType o.canReceive g' s target with ⟨_ | _, g₂⟩ <;>
            simp_all
        | disconnect => rfl
      · rfl

/-- A link that is made or refused is settled. -/
theorem isSettled_changeLink (o : Oscit T) (root : Root) (g : SlotGraph T) (s : ObjectId)
    (val : String) : Planet.isSettled (g.changeLink o root s .create val).1 = true := by
  unfold changeLink
  split
  · rfl
  · split
    · rfl
    · rename_i target _
      split
      · rcases hc : connect o.noType o.canReceive g s target with ⟨_ | _, g'⟩ <;>
          simp [Planet.isSettled]
      · rfl

end SlotGraph

namespace Planet

variable {T : Type} {o : Oscit T} {p q : Planet T} {val entry : LinkValue}

/-! ## One call of `link` -/

/-- The entry leads to the null slot: its source is not a slot, but has a child `out`
whose first child is not a slot. -/
def reachesNullSlot (p : Planet T) (val : LinkValue) : Bool :=
  match p.root.objectAt val.source, p.root.objectAt val.target with
  | some source, some _ =>
      !p.graph.isSlot source &&
        match (p.root.child source "out").bind p.root.firstChild with
        | some object => !p.graph.isSlot object
        | none => false
  | _, _ => false

/-- What `link` returns for the entry. -/
def answer (o : Oscit T) (p : Planet T) (val : LinkValue) : LinkAnswer :=
  match p.link o val with
  | .ok (res, _) => res
  | .error _ => .nil

/-- The planets differ in the links, and in what they keep and remember, at most. -/
structure SameObjects (p q : Planet T) : Prop where
  root : q.root = p.root
  keys : SlotGraph.SameKeys p.graph q.graph

namespace SameObjects

theorem refl (p : Planet T) : SameObjects p p := ⟨rfl, .refl _⟩

theorem resolves (h : SameObjects p q) (val : LinkValue) : q.resolves val = p.resolves val := by
  simp [Planet.resolves, h.root]

theorem reachesNullSlot (h : SameObjects p q) (val : LinkValue) :
    q.reachesNullSlot val = p.reachesNullSlot val := by
  simp [Planet.reachesNullSlot, h.root, h.keys.isSlot]

end SameObjects

theorem link_of_not_resolves (h : p.resolves val = false) :
    p.link o val =
      if val.op = "=>" then .ok (p.addPendingLink val)
      else if val.op = "||" then .ok (p.removePendingLink val)
      else .ok (.sss val, p) := by
  unfold link
  unfold resolves at h
  split
  · rename_i hs ht
    simp [hs, ht] at h
  · rfl

theorem link_of_reachesNullSlot (h : p.reachesNullSlot val = true) :
    p.link o val = .error .nullSlot := by
  unfold reachesNullSlot at h
  split at h
  · rename_i source target hs ht
    simp only [Bool.and_eq_true, Bool.not_eq_true'] at h
    obtain ⟨hslot, hobject⟩ := h
    split at hobject
    · rename_i object hout
      rw [Bool.not_eq_true'] at hobject
      simp [link, hs, ht, hslot, hout, hobject]
    · cases hobject
  · cases h

/-- The entry whose urls both lead somewhere changes one link, or is refused. -/
theorem link_cases (h : p.resolves val = true) (hnull : p.reachesNullSlot val = false) :
    (∃ slot, p.link o val = .ok (p.changeLink o slot val) ∧
      ∀ q, SameObjects p q → q.link o val = .ok (q.changeLink o slot val)) ∨
    ∃ text, p.link o val = .ok (.error .badRequest text, p) ∧
      ∀ q, SameObjects p q → q.link o val = .ok (.error .badRequest text, q) := by
  unfold resolves at h
  unfold reachesNullSlot at hnull
  cases hs : p.root.objectAt val.source with
  | none => simp [hs] at h
  | some source =>
    cases ht : p.root.objectAt val.target with
    | none => simp [ht] at h
    | some target =>
      simp only [hs, ht, Bool.and_eq_false_imp, Bool.not_eq_true'] at hnull
      cases hslot : p.graph.isSlot source with
      | true =>
        left
        refine ⟨source, by simp [link, hs, ht, hslot], fun q hq => ?_⟩
        simp [link, hq.root, hq.keys.isSlot, hs, ht, hslot]
      | false =>
        have hobject := hnull hslot
        cases hout : (p.root.child source "out").bind p.root.firstChild with
        | none =>
          right
          refine ⟨_, by simp only [link, hs, ht, hslot, hout]; rfl, fun q hq => ?_⟩
          simp only [link, hq.root, hq.keys.isSlot, hs, ht, hslot, hout]
          rfl
        | some object =>
          rw [hout, Bool.not_eq_false'] at hobject
          left
          refine ⟨object, by simp [link, hs, ht, hslot, hout, hobject], fun q hq => ?_⟩
          simp [link, hq.root, hq.keys.isSlot, hs, ht, hslot, hout, hobject]

theorem sameObjects_changeLink (o : Oscit T) (p : Planet T) (slot : ObjectId)
    (val : LinkValue) : SameObjects p (p.changeLink o slot val).2 :=
  ⟨rfl, SlotGraph.sameKeys_changeLink o p.root p.graph slot _ val.target⟩

/-- Whatever is asked, the objects stay. -/
theorem sameObjects_link {res : LinkAnswer} (h : p.link o val = .ok (res, q)) :
    SameObjects p q := by
  cases hres : p.resolves val with
  | false =>
    rw [link_of_not_resolves hres] at h
    split at h
    · cases h
      exact ⟨rfl, .refl _⟩
    · split at h
      · rw [Except.ok.injEq] at h
        unfold removePendingLink at h
        split at h <;> cases h <;> exact ⟨rfl, .refl _⟩
      · cases h
        exact .refl p
  | true =>
    cases hnull : p.reachesNullSlot val with
    | true => simp [link_of_reachesNullSlot hnull] at h
    | false =>
      rcases link_cases (o := o) hres hnull with ⟨slot, hlink, -⟩ | ⟨text, hlink, -⟩
      · rw [hlink, Except.ok.injEq] at h
        obtain rfl : (p.changeLink o slot val).2 = q := congrArg Prod.snd h
        exact sameObjects_changeLink o p slot val
      · rw [hlink] at h
        cases h
        exact .refl p

/-- A link that is made, or is refused, keeps the list of pending links. -/
theorem pendingLinks_link {res : LinkAnswer} (hres : p.resolves val = true)
    (h : p.link o val = .ok (res, q)) : q.pendingLinks = p.pendingLinks ∧ q.log = p.log := by
  cases hnull : p.reachesNullSlot val with
  | true => simp [link_of_reachesNullSlot hnull] at h
  | false =>
    rcases link_cases (o := o) hres hnull with ⟨slot, hlink, -⟩ | ⟨text, hlink, -⟩
    · rw [hlink, Except.ok.injEq] at h
      obtain rfl : (p.changeLink o slot val).2 = q := congrArg Prod.snd h
      exact ⟨rfl, rfl⟩
    · rw [hlink] at h
      cases h
      exact ⟨rfl, rfl⟩

/-- The answer for an entry depends on the objects only. -/
theorem SameObjects.answer (h : SameObjects p q) (hres : p.resolves val = true)
    (hnull : p.reachesNullSlot val = false) : answer o q val = answer o p val := by
  unfold Planet.answer
  rcases link_cases (o := o) hres hnull with ⟨slot, hlink, hother⟩ | ⟨text, hlink, hother⟩
  · rw [hlink, hother q h]
    simp only [changeLink, h.root]
    exact h.keys.changeLink_fst o p.root slot _ val.target
  · rw [hlink, hother q h]

/-- Trying an entry again settles it when both its urls lead somewhere. -/
theorem isSettled_answer (hop : val.op = "?") (hres : p.resolves val = true)
    (hnull : p.reachesNullSlot val = false) : isSettled (answer o p val) = true := by
  unfold answer
  rcases link_cases (o := o) hres hnull with ⟨slot, hlink, -⟩ | ⟨text, hlink, -⟩
  · simp only [hlink, changeLink, hop]
    exact SlotGraph.isSettled_changeLink o p.root p.graph slot val.target
  · simp [hlink, isSettled]

/-! ## The loop of `create_pending_links` -/

/-- The kept entries are those the retry operator marks. -/
def Pending (entries : List LinkValue) : Prop := ∀ entry ∈ entries, entry.op = "?"

/-- Trying an entry again whose urls do not both lead somewhere does nothing. -/
theorem link_pending (hop : entry.op = "?") (hres : p.resolves entry = false) :
    p.link o entry = .ok (.sss entry, p) := by
  rw [link_of_not_resolves hres]
  simp [hop]

/-- One turn of the loop that keeps its entry. -/
theorem createPendingLinksFrom_kept {kept rest : List LinkValue} (hop : entry.op = "?")
    (hp : p.pendingLinks = kept ++ entry :: rest) (hres : p.resolves entry = false)
    (fuel : Nat) (list : List LinkAnswer) :
    createPendingLinksFrom o (fuel + 1) kept.length list p =
      createPendingLinksFrom o fuel (kept ++ [entry]).length list p := by
  have hget : p.pendingLinks[kept.length]? = some entry := by simp [hp]
  have hkept : isSettled (.sss entry) = false := by simp [isSettled, hop]
  simp [createPendingLinksFrom, hget, link_pending hop hres, hkept]

/-- One turn of the loop that settles its entry. -/
theorem createPendingLinksFrom_settled {kept rest : List LinkValue} (hop : entry.op = "?")
    (hp : p.pendingLinks = kept ++ entry :: rest) (hres : p.resolves entry = true)
    (hnull : p.reachesNullSlot entry = false) (fuel : Nat) (list : List LinkAnswer) :
    ∃ q, SameObjects p q ∧ q.pendingLinks = kept ++ rest ∧
      q.log = p.log ++ [⟨entry, answer o p entry⟩] ∧
      createPendingLinksFrom o (fuel + 1) kept.length list p =
        createPendingLinksFrom o fuel kept.length (list ++ [answer o p entry]) q := by
  have hget : p.pendingLinks[kept.length]? = some entry := by simp [hp]
  have hsettled : isSettled (answer o p entry) = true := isSettled_answer hop hres hnull
  cases hlink : p.link o entry with
  | error fault =>
    rcases link_cases (o := o) hres hnull with ⟨_, h, -⟩ | ⟨_, h, -⟩ <;>
      rw [h] at hlink <;> cases hlink
  | ok result =>
    obtain ⟨res, q⟩ := result
    have hsame : SameObjects p q := sameObjects_link hlink
    obtain ⟨hpend, hlog⟩ := pendingLinks_link hres hlink
    obtain rfl : answer o p entry = res := by simp [answer, hlink]
    refine ⟨q.erasePending kept.length ⟨entry, answer o p entry⟩, ⟨hsame.root, hsame.keys⟩,
      ?_, by simp [erasePending, hlog], ?_⟩
    · simp only [erasePending, hpend, hp]
      rw [List.eraseIdx_append_of_length_le (le_refl _)]
      simp
    · simp [createPendingLinksFrom, hget, hlink, hsettled]

/-- The loop from the first of the entries `rest` on, when none of them reaches the
null slot.  Every answer is the one of the planet the loop started with. -/
theorem createPendingLinksFrom_eq {rest : List LinkValue} (hpending : Pending rest) :
    ∀ (p : Planet T) (kept : List LinkValue) (list : List LinkAnswer),
      p.pendingLinks = kept ++ rest → (∀ entry ∈ rest, p.reachesNullSlot entry = false) →
      ∃ g', p.graph.SameKeys g' ∧
        createPendingLinksFrom o rest.length kept.length list p =
          .ok (list ++ (rest.filter p.resolves).map (answer o p),
            { p with
              graph := g'
              pendingLinks := kept ++ rest.filter fun entry => !p.resolves entry
              log := p.log ++
                (rest.filter p.resolves).map fun entry => ⟨entry, answer o p entry⟩ }) := by
  induction rest with
  | nil =>
    intro p kept list hp _
    refine ⟨p.graph, .refl _, ?_⟩
    rw [List.append_nil] at hp
    simp [createPendingLinksFrom, ← hp]
  | cons entry rest ih =>
    intro p kept list hp hnull
    have hop : entry.op = "?" := hpending entry List.mem_cons_self
    have hrest : Pending rest := fun e he => hpending e (List.mem_cons_of_mem _ he)
    have hnullRest : ∀ e ∈ rest, p.reachesNullSlot e = false :=
      fun e he => hnull e (List.mem_cons_of_mem _ he)
    cases hres : p.resolves entry with
    | false =>
      obtain ⟨g', hkeys, hloop⟩ := ih hrest p (kept ++ [entry]) list (by simp [hp]) hnullRest
      refine ⟨g', hkeys, ?_⟩
      rw [List.length_cons, createPendingLinksFrom_kept hop hp hres, hloop]
      simp [hres]
    | true =>
      obtain ⟨q, hsame, hpend, hlog, hturn⟩ := createPendingLinksFrom_settled (o := o) hop hp
        hres (hnull entry List.mem_cons_self) rest.length list
      obtain ⟨g', hkeys, hloop⟩ := ih hrest q kept (list ++ [answer o p entry]) hpend
        fun e he => (hsame.reachesNullSlot e).trans (hnullRest e he)
      refine ⟨g', hsame.keys.trans hkeys, ?_⟩
      have hanswer : ∀ e ∈ rest.filter p.resolves, answer o q e = answer o p e := by
        intro e he
        obtain ⟨hmem, hres'⟩ := List.mem_filter.mp he
        exact hsame.answer hres' (hnullRest e hmem)
      rw [funext hsame.resolves, List.map_congr_left hanswer,
        List.map_congr_left fun e he => congrArg (LinkObs.mk e) (hanswer e he)] at hloop
      rw [List.length_cons, hturn, hloop]
      simp [hres, hsame.root, hlog]

/-- The loop meets an entry that reaches the null slot. -/
theorem createPendingLinksFrom_nullSlot {rest : List LinkValue} (hpending : Pending rest) :
    ∀ (p : Planet T) (kept : List LinkValue) (list : List LinkAnswer),
      p.pendingLinks = kept ++ rest → (∃ entry ∈ rest, p.reachesNullSlot entry = true) →
      createPendingLinksFrom o rest.length kept.length list p = .error .nullSlot := by
  induction rest with
  | nil => simp
  | cons entry rest ih =>
    intro p kept list hp hnull
    have hop : entry.op = "?" := hpending entry List.mem_cons_self
    have hrest : Pending rest := fun e he => hpending e (List.mem_cons_of_mem _ he)
    cases hentry : p.reachesNullSlot entry with
    | true =>
      have hget : p.pendingLinks[kept.length]? = some entry := by simp [hp]
      simp [createPendingLinksFrom, hget, link_of_reachesNullSlot hentry]
    | false =>
      obtain ⟨e, he, htrue⟩ : ∃ e ∈ rest, p.reachesNullSlot e = true := by
        obtain ⟨e, he, htrue⟩ := hnull
        rcases List.mem_cons.mp he with rfl | he
        · rw [hentry] at htrue
          cases htrue
        · exact ⟨e, he, htrue⟩
      cases hres : p.resolves entry with
      | false =>
        rw [List.length_cons, createPendingLinksFrom_kept hop hp hres]
        exact ih hrest p (kept ++ [entry]) list (by simp [hp]) ⟨e, he, htrue⟩
      | true =>
        obtain ⟨q, hsame, hpend, -, hturn⟩ := createPendingLinksFrom_settled (o := o) hop hp
          hres hentry rest.length list
        rw [List.length_cons, hturn]
        exact ih hrest q kept _ hpend ⟨e, he, (hsame.reachesNullSlot e).trans htrue⟩

/-- The loop only walks over entries that do not resolve. -/
theorem createPendingLinksFrom_idle {rest : List LinkValue} (hpending : Pending rest)
    (hres : ∀ entry ∈ rest, p.resolves entry = false) :
    ∀ (kept : List LinkValue) (list : List LinkAnswer), p.pendingLinks = kept ++ rest →
      createPendingLinksFrom o rest.length kept.length list p = .ok (list, p) := by
  induction rest with
  | nil =>
    intro kept list hp
    simp [createPendingLinksFrom, hp]
  | cons entry rest ih =>
    intro kept list hp
    rw [List.length_cons, createPendingLinksFrom_kept (hpending entry List.mem_cons_self) hp
      (hres entry List.mem_cons_self)]
    exact ih (fun e he => hpending e (List.mem_cons_of_mem _ he))
      (fun e he => hres e (List.mem_cons_of_mem _ he)) (kept ++ [entry]) list (by simp [hp])

/-- `create_pending_links`, on entries none of which reaches the null slot. -/
theorem createPendingLinks_eq (o : Oscit T) (hpending : Pending p.pendingLinks)
    (hnull : ∀ entry ∈ p.pendingLinks, p.reachesNullSlot entry = false) :
    ∃ g', p.graph.SameKeys g' ∧
      p.createPendingLinks o =
        .ok ((p.pendingLinks.filter p.resolves).map (answer o p),
          { p with
            graph := g'
            pendingLinks := p.pendingLinks.filter fun entry => !p.resolves entry
            log := p.log ++ (p.pendingLinks.filter p.resolves).map fun entry =>
              ⟨entry, answer o p entry⟩ }) := by
  obtain ⟨g', hkeys, hloop⟩ := createPendingLinksFrom_eq (o := o) hpending p [] [] rfl hnull
  exact ⟨g', hkeys, by simpa [createPendingLinks] using hloop⟩

/-- `create_pending_links`, on entries one of which reaches the null slot. -/
theorem createPendingLinks_nullSlot (o : Oscit T) (hpending : Pending p.pendingLinks)
    (hnull : ∃ entry ∈ p.pendingLinks, p.reachesNullSlot entry = true) :
    p.createPendingLinks o = .error .nullSlot :=
  createPendingLinksFrom_nullSlot hpending p [] [] rfl hnull

/-- One or the other. -/
theorem nullSlot_or (p : Planet T) :
    (∃ entry ∈ p.pendingLinks, p.reachesNullSlot entry = true) ∨
      ∀ entry ∈ p.pendingLinks, p.reachesNullSlot entry = false := by
  by_cases h : ∃ entry ∈ p.pendingLinks, p.reachesNullSlot entry = true
  · exact Or.inl h
  · exact Or.inr fun entry he => by simpa using fun htrue => h ⟨entry, he, htrue⟩

/-- The loop of `create_pending_links` is never cut. -/
theorem createPendingLinks_ends (o : Oscit T) (hpending : Pending p.pendingLinks) :
    p.createPendingLinks o ≠ .error .unfinished := by
  rcases nullSlot_or p with hnull | hnull
  · simp [createPendingLinks_nullSlot o hpending hnull]
  · obtain ⟨g', -, hok⟩ := createPendingLinks_eq o hpending hnull
    simp [hok]

end Planet

end Rubyk
