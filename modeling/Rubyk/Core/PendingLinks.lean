/-
  Core/PendingLinks.lean --- what becomes of the links a planet keeps for later.

  Two results.  Retrying: `create_pending_links` keeps exactly the entries that do
  not resolve yet and answers the others, in every reachable state where no entry
  reaches the null slot.  Unlinking: `s || d` cancels a link that is pending once.
-/
import Rubyk.Core.PlanetSteps

set_option autoImplicit false

namespace Rubyk.Planet

variable {T : Type} {o : Oscit T} {p q : Planet T} {val entry : LinkValue}

/-! ## Every run -/

/-- The three steps. -/
theorem step_cases {a : PlanetAction T} (h : p.step o a = .ok q) :
    (∃ val res, a = .link val ∧ p.link o val = .ok (res, q)) ∨
    (∃ answers, a = .createPendingLinks ∧ p.createPendingLinks o = .ok (answers, q)) ∨
    ∃ root graph, a = .objects root graph ∧ q = { p with root := root, graph := graph } := by
  cases a with
  | link val =>
    simp only [step] at h
    cases hlink : p.link o val with
    | error fault => rw [hlink] at h; cases h
    | ok result =>
      obtain ⟨res, p'⟩ := result
      rw [hlink] at h
      cases h
      exact Or.inl ⟨val, res, rfl, hlink⟩
  | createPendingLinks =>
    simp only [step] at h
    cases hcreate : p.createPendingLinks o with
    | error fault => rw [hcreate] at h; cases h
    | ok result =>
      obtain ⟨answers, p'⟩ := result
      rw [hcreate] at h
      cases h
      exact Or.inr (Or.inl ⟨answers, rfl, rfl⟩)
  | objects root graph =>
    cases h
    exact Or.inr (Or.inr ⟨root, graph, rfl, rfl⟩)

/-- What a request does to the pending links. -/
theorem link_effect {res : LinkAnswer} (h : p.link o val = .ok (res, q)) :
    q.log = p.log ∧
      (q.pendingLinks = p.pendingLinks ∨
        (val.op = "=>" ∧ q.pendingLinks = p.pendingLinks ++ [{ val with op := "?" }]) ∨
        q.pendingLinks = p.pendingLinks.eraseP (sameUrls val)) := by
  cases hres : p.resolves val with
  | true =>
    obtain ⟨hpend, hlog⟩ := pendingLinks_link hres h
    exact ⟨hlog, Or.inl hpend⟩
  | false =>
    rw [link_of_not_resolves hres] at h
    split at h
    · rename_i hop
      cases h
      exact ⟨rfl, Or.inr (Or.inl ⟨hop, rfl⟩)⟩
    · split at h
      · rw [Except.ok.injEq] at h
        unfold removePendingLink at h
        split at h <;> cases h
        · exact ⟨rfl, Or.inr (Or.inr rfl)⟩
        · exact ⟨rfl, Or.inl rfl⟩
      · cases h
        exact ⟨rfl, Or.inl rfl⟩

/-- Every step keeps the operator of what is pending. -/
theorem pending_step {a : PlanetAction T} (hpending : Pending p.pendingLinks)
    (h : p.step o a = .ok q) : Pending q.pendingLinks := by
  rcases step_cases h with ⟨val, res, -, hlink⟩ | ⟨answers, -, hcreate⟩ | ⟨root, graph, -, rfl⟩
  · rcases (link_effect hlink).2 with heq | ⟨-, heq⟩ | heq <;> rw [heq]
    · exact hpending
    · intro entry he
      rcases List.mem_append.mp he with he | he
      · exact hpending entry he
      · rw [List.mem_singleton.mp he]
    · exact fun entry he => hpending entry (List.mem_of_mem_eraseP he)
  · rcases nullSlot_or p with hnull | hnull
    · rw [createPendingLinks_nullSlot o hpending hnull] at hcreate
      cases hcreate
    · obtain ⟨g', -, hok⟩ := createPendingLinks_eq o hpending hnull
      rw [hok] at hcreate
      cases hcreate
      exact fun entry he => hpending entry (List.mem_of_mem_filter he)
  · exact hpending

theorem pending_of_run {root : Root} {graph : SlotGraph T} {acts : List (PlanetAction T)}
    (h : Lib.Run (Lib.StepOf (step o)) (init root graph) acts p) : Pending p.pendingLinks :=
  h.invariant (fun p => Pending p.pendingLinks) (fun _ _ _ => pending_step)
    (by simp [init, Pending])

/-! ## Pending links are neither lost nor kept too long -/

/-- What `create_pending_links` should do: it returns, keeps the entries one of whose
urls still leads nowhere, answers each other entry with a link or an error, and has
nothing to do when it is run again. -/
structure Retried (o : Oscit T) (p : Planet T) (answers : List LinkAnswer) (p' : Planet T) :
    Prop where
  returns : p.createPendingLinks o = .ok (answers, p')
  root : p'.root = p.root
  kept : p'.pendingLinks = p.pendingLinks.filter fun entry => !p.resolves entry
  pending : Pending p'.pendingLinks
  answered : answers = (p.pendingLinks.filter p.resolves).map (answer o p)
  settled : ∀ res ∈ answers, isSettled res = true
  again : p'.createPendingLinks o = .ok ([], p')

/-- No entry reaches the null slot: that is what it takes. -/
theorem retried (hpending : Pending p.pendingLinks)
    (hnull : ∀ entry ∈ p.pendingLinks, p.reachesNullSlot entry = false) :
    ∃ answers p', Retried o p answers p' := by
  obtain ⟨g', hkeys, hok⟩ := createPendingLinks_eq o hpending hnull
  have hkept : Pending (p.pendingLinks.filter fun entry => !p.resolves entry) :=
    fun entry he => hpending entry (List.mem_of_mem_filter he)
  refine ⟨_, _, hok, rfl, rfl, hkept, rfl, ?_, ?_⟩
  · intro res hres
    obtain ⟨entry, he, rfl⟩ := List.mem_map.mp hres
    obtain ⟨hmem, hresolves⟩ := List.mem_filter.mp he
    exact isSettled_answer (hpending entry hmem) hresolves (hnull entry hmem)
  · have hleft : ∀ entry ∈ p.pendingLinks.filter fun entry => !p.resolves entry,
        p.resolves entry = false :=
      fun entry he => by simpa using (List.mem_filter.mp he).2
    refine createPendingLinksFrom_idle hkept ?_ [] [] rfl
    exact hleft

/-- Pending links are retried right in every reachable state none of whose entries
reaches the null slot, and in no other. -/
theorem pendingLinks_retried_iff (o : Oscit T) {root : Root} {graph : SlotGraph T}
    {acts : List (PlanetAction T)}
    (hrun : Lib.Run (Lib.StepOf (step o)) (init root graph) acts p) :
    (∃ answers p', Retried o p answers p') ↔
      ∀ entry ∈ p.pendingLinks, p.reachesNullSlot entry = false := by
  have hpending : Pending p.pendingLinks := pending_of_run hrun
  constructor
  · rintro ⟨answers, p', h⟩ entry he
    by_contra hentry
    rw [Bool.not_eq_false] at hentry
    have herror := createPendingLinks_nullSlot o hpending ⟨entry, he, hentry⟩
    rw [h.returns] at herror
    cases herror
  · exact retried hpending

/-- A tree where `/a` has a child `out` whose only child is not a slot, and `/b` is some
object. -/
def treeWithoutOutlet : Root where
  objectAt url := if url = "/a" then some 0 else if url = "/b" then some 1 else none
  child object name := if object = 0 ∧ name = "out" then some 2 else none
  firstChild object := if object = 2 then some 3 else none
  url _ := ""

/-- A tree with nothing in it. -/
def emptyTree : Root where
  objectAt _ := none
  child _ _ := none
  firstChild _ := none
  url _ := ""

/-- Every inlet receives everything. -/
def anyType : Oscit Unit := ⟨fun _ => false, fun _ _ => true, id⟩

/-- The planet without objects, after `/a => /b`. -/
def requested : Planet Unit := ⟨emptyTree, .empty, [⟨"/a", "?", "/b"⟩], []⟩

theorem run_requested :
    Lib.Run (Lib.StepOf (step anyType)) (init emptyTree .empty) [.link ⟨"/a", "=>", "/b"⟩]
      requested := Lib.Run.of_foldlM rfl

theorem pendingLinks_retried_requested :
    (∃ answers p', Retried anyType requested answers p') ↔
      ∀ entry ∈ requested.pendingLinks, requested.reachesNullSlot entry = false :=
  pendingLinks_retried_iff anyType (p := requested) run_requested

/-- A request is kept, its objects are created, and `create_pending_links` does not
return. -/
theorem pendingLinks_not_retried :
    ∃ (acts : List (PlanetAction Unit)) (p : Planet Unit),
      Lib.Run (Lib.StepOf (step anyType)) (init emptyTree .empty) acts p ∧
        ¬ ∃ answers p', Retried anyType p answers p' := by
  refine ⟨[.link ⟨"/a", "=>", "/b"⟩, .objects treeWithoutOutlet .empty],
    { requested with root := treeWithoutOutlet }, Lib.Run.of_foldlM rfl, ?_⟩
  rintro ⟨answers, p', h⟩
  have herror : createPendingLinks anyType { requested with root := treeWithoutOutlet } =
      .error .nullSlot := rfl
  rw [h.returns] at herror
  cases herror

/-! ## Unlinking cancels a requested link -/

/-- How often `create_pending_links` made a link for the pair of urls. -/
def linksMade (source target : String) (log : List LinkObs) : Nat :=
  log.countP fun obs =>
    sameUrls ⟨source, "", target⟩ obs.entry &&
      match obs.answer with
      | .sss val => val.op == "=>"
      | _ => false

theorem linksMade_append (source target : String) (log log' : List LinkObs) :
    linksMade source target (log ++ log') =
      linksMade source target log + linksMade source target log' := List.countP_append

/-- How many entries are pending for the pair of urls. -/
def pendingFor (source target : String) (p : Planet T) : Nat :=
  p.pendingLinks.countP (sameUrls ⟨source, "", target⟩)

/-- No action asks for the link again. -/
def NotRequested (source target : String) (acts : List (PlanetAction T)) : Prop :=
  ∀ a ∈ acts, ∀ val, a = .link val → sameUrls ⟨source, "", target⟩ val = true → val.op ≠ "=>"

@[simp] theorem sameUrls_iff : sameUrls val entry = true ↔
    entry.source = val.source ∧ entry.target = val.target := by
  simp [sameUrls]

/-- The pair has an entry fewer, if it had one. -/
theorem countP_eraseP {α : Type} (f : α → Bool) (l : List α) :
    (l.eraseP f).countP f = l.countP f - 1 := by
  induction l with
  | nil => rfl
  | cons a l ih =>
    cases ha : f a with
    | true => simp [ha]
    | false => simp [ha, ih]

/-- Nothing pending for the pair, and no request for it: no link is made for it. -/
theorem linksMade_step {a : PlanetAction T} {source target : String}
    (hpending : Pending p.pendingLinks) (hnone : pendingFor source target p = 0)
    (hreq : NotRequested source target [a]) (h : p.step o a = .ok q) :
    pendingFor source target q = 0 ∧
      linksMade source target q.log = linksMade source target p.log := by
  simp only [pendingFor, List.countP_eq_zero] at hnone ⊢
  rcases step_cases h with ⟨val, res, rfl, hlink⟩ | ⟨answers, -, hcreate⟩ | ⟨root, graph, -, rfl⟩
  · obtain ⟨hlog, heffect⟩ := link_effect hlink
    rw [hlog]
    refine ⟨?_, rfl⟩
    rcases heffect with heq | ⟨hop, heq⟩ | heq <;> rw [heq]
    · exact hnone
    · intro entry he
      rcases List.mem_append.mp he with he | he
      · exact hnone entry he
      · rw [List.mem_singleton.mp he]
        intro hsame
        exact hreq (.link val) (by simp) val rfl (by simpa using hsame) hop
    · exact fun entry he => hnone entry (List.mem_of_mem_eraseP he)
  · rcases nullSlot_or p with hnull | hnull
    · rw [createPendingLinks_nullSlot o hpending hnull] at hcreate
      cases hcreate
    · obtain ⟨g', -, hok⟩ := createPendingLinks_eq o hpending hnull
      rw [hok] at hcreate
      cases hcreate
      refine ⟨fun entry he => hnone entry (List.mem_of_mem_filter he), ?_⟩
      rw [linksMade_append, Nat.add_eq_left, linksMade, List.countP_eq_zero]
      intro obs hobs
      obtain ⟨entry, he, rfl⟩ := List.mem_map.mp hobs
      simp [hnone entry (List.mem_of_mem_filter he)]
  · exact ⟨hnone, rfl⟩

theorem linksMade_run {source target : String} {acts : List (PlanetAction T)}
    (hpending : Pending p.pendingLinks) (hnone : pendingFor source target p = 0)
    (hreq : NotRequested source target acts)
    (h : Lib.Run (Lib.StepOf (step o)) p acts q) :
    linksMade source target q.log = linksMade source target p.log := by
  suffices hall : Pending q.pendingLinks ∧ pendingFor source target q = 0 ∧
      linksMade source target q.log = linksMade source target p.log from hall.2.2
  induction h with
  | nil => exact ⟨hpending, hnone, rfl⟩
  | snoc _ hlast ih =>
    obtain ⟨hpend, hzero, hmade⟩ := ih fun b hb => hreq b (List.mem_append_left _ hb)
    obtain ⟨hzero', hmade'⟩ := linksMade_step hpend hzero
      (fun b hb => hreq b (List.mem_append_right _ hb)) hlast
    exact ⟨pending_step hpend hlast, hzero', hmade'.trans hmade⟩

/-- `s || d` on urls that do not both lead somewhere. -/
theorem unlink_pending (o : Oscit T) {source target : String}
    (hres : p.resolves ⟨source, "||", target⟩ = false) :
    ∃ q, p.step o (.link ⟨source, "||", target⟩) = .ok q ∧
      q.pendingLinks = p.pendingLinks.eraseP (sameUrls ⟨source, "", target⟩) := by
  have hurls : sameUrls ⟨source, "||", target⟩ = sameUrls ⟨source, "", target⟩ := rfl
  cases hfind : p.pendingLinks.find? (sameUrls ⟨source, "||", target⟩) with
  | none =>
    refine ⟨p, ?_, ?_⟩
    · simp [step, link_of_not_resolves hres, removePendingLink, hfind, Except.map]
    · rw [← hurls, List.eraseP_of_forall_not (List.find?_eq_none.mp hfind)]
  | some entry =>
    refine ⟨{ p with
      pendingLinks := p.pendingLinks.eraseP (sameUrls ⟨source, "", target⟩) }, ?_, rfl⟩
    rw [← hurls]
    simp [step, link_of_not_resolves hres, removePendingLink, hfind, Except.map]

/-- A tree where each of the two urls leads to a node with an outlet and an inlet. -/
def linkableTree (source target : String) : Root where
  objectAt url := if url = source ∨ url = target then some 0 else none
  child _ name := if name = "out" then some 1 else some 2
  firstChild object := if object = 1 then some 3 else some 4
  url _ := ""

/-- The outlet and the inlet. -/
def linkableGraph (outlet inlet : T) : SlotGraph T where
  slots s :=
    if s = 3 then some ⟨.outlet, 0, outlet, 0, []⟩
    else if s = 4 then some ⟨.inlet, 1, inlet, 0, []⟩ else none
  nodes _ := none
  sIdCounter := 0

section Linkable

variable {source target : String} {outlet inlet : T}

theorem reachesNullSlot_linkable
    (hp : p.root = linkableTree source target) (hg : p.graph = linkableGraph outlet inlet)
    (val : LinkValue) : p.reachesNullSlot val = false := by
  unfold reachesNullSlot
  rw [hp, hg]
  split <;> simp [linkableTree, linkableGraph, SlotGraph.isSlot]

theorem answer_linkable (hnoOutlet : o.noType outlet = false)
    (hnoInlet : o.noType inlet = false) (hreceive : o.canReceive inlet outlet = true)
    (hp : p.root = linkableTree source target) (hg : p.graph = linkableGraph outlet inlet)
    (hop : val.op = "?") (hurls : sameUrls ⟨source, "", target⟩ val = true) :
    p.resolves val = true ∧ answer o p val = .sss ⟨"", "=>", ""⟩ := by
  obtain ⟨hs, ht⟩ := sameUrls_iff.mp hurls
  have hsource : p.root.objectAt val.source = some 0 := by simp [hp, hs, linkableTree]
  have htarget : p.root.objectAt val.target = some 0 := by simp [hp, ht, linkableTree]
  refine ⟨by simp [resolves, hsource, htarget], ?_⟩
  have hnode : p.graph.isSlot 0 = false := by simp [hg, linkableGraph, SlotGraph.isSlot]
  have houtlet : p.graph.isSlot 3 = true := by simp [hg, linkableGraph, SlotGraph.isSlot]
  have hchild : (p.root.child 0 "out").bind p.root.firstChild = some 3 := by
    simp [hp, linkableTree]
  have hlink : p.link o val = .ok (p.changeLink o 3 val) := by
    simp [link, hsource, htarget, hnode, hchild, houtlet]
  have hflag : (SlotGraph.connect o.noType o.canReceive p.graph 3 4).1 = true := by
    rw [SlotGraph.connect_fst, hg]
    simp [linkableGraph, SlotGraph.compatible, hnoOutlet, hnoInlet, hreceive]
  simp only [answer, hlink, changeLink, hop]
  rcases hc : SlotGraph.connect o.noType o.canReceive p.graph 3 4 with ⟨flag, g'⟩
  obtain rfl : flag = true := by simpa [hc] using hflag
  have hobject : p.root.objectAt val.target = some 0 := htarget
  have htarget' : p.graph.linkTarget p.root 0 = some 4 := by
    simp [SlotGraph.linkTarget, hp, hg, linkableTree, linkableGraph, SlotGraph.isSlot]
  have hkind : p.graph.isKind (p.graph.wantedKind 3) 4 = true := by
    simp [SlotGraph.wantedKind, SlotGraph.isKind, hg, linkableGraph]
  simp [SlotGraph.changeLink, hobject, htarget', hkind, hc]
  simp [hp, linkableTree]

end Linkable

/-- `s || d` cancels the link when it was pending at most once: from then on no link is
made for the pair until it is requested again.  When the link was pending twice,
objects can appear that make it. -/
theorem unlink_cancels_iff (o : Oscit T)
    (hlinkable : ∃ outlet inlet : T, o.noType outlet = false ∧ o.noType inlet = false ∧
      o.canReceive inlet outlet = true)
    {root : Root} {graph : SlotGraph T} {acts : List (PlanetAction T)}
    (hrun : Lib.Run (Lib.StepOf (step o)) (init root graph) acts p) (source target : String)
    (hres : p.resolves ⟨source, "||", target⟩ = false) :
    ∃ q, p.step o (.link ⟨source, "||", target⟩) = .ok q ∧
      ((∀ acts r, Lib.Run (Lib.StepOf (step o)) q acts r → NotRequested source target acts →
          linksMade source target r.log = linksMade source target q.log) ↔
        pendingFor source target p ≤ 1) := by
  obtain ⟨q, hq, herase⟩ := unlink_pending o hres
  have hpending : Pending q.pendingLinks := pending_step (pending_of_run hrun) hq
  have hcount : pendingFor source target q = pendingFor source target p - 1 := by
    rw [pendingFor, herase, countP_eraseP]
    rfl
  refine ⟨q, hq, ?_, ?_⟩
  · intro h
    by_contra hmany
    obtain ⟨outlet, inlet, hnoOutlet, hnoInlet, hreceive⟩ := hlinkable
    have hpos : 0 < pendingFor source target q := by omega
    obtain ⟨entry, hentry, hurls⟩ := List.countP_pos_iff.mp hpos
    let q' : Planet T :=
      { q with root := linkableTree source target, graph := linkableGraph outlet inlet }
    obtain ⟨g', -, hok⟩ := createPendingLinks_eq (p := q') o hpending
      fun e _ => reachesNullSlot_linkable rfl rfl e
    have hmade := h [.objects (linkableTree source target) (linkableGraph outlet inlet),
      .createPendingLinks] _
      (Lib.Run.cons (t := q') rfl (Lib.Run.one (by rw [Lib.StepOf, step, hok]; rfl)))
      (by simp [NotRequested])
    obtain ⟨hresolves, hanswer⟩ := answer_linkable (p := q') hnoOutlet hnoInlet hreceive rfl rfl
      (hpending entry hentry) hurls
    have hnone : linksMade source target ((q'.pendingLinks.filter q'.resolves).map
        fun e => ⟨e, answer o q' e⟩) = 0 := by
      rw [linksMade_append] at hmade
      exact Nat.add_eq_left.mp hmade
    have hnew := List.countP_eq_zero.mp hnone ⟨entry, answer o q' entry⟩
      (List.mem_map.mpr ⟨entry, List.mem_filter.mpr ⟨hentry, hresolves⟩, rfl⟩)
    simp [hurls, hanswer] at hnew
  · intro hle acts r hrun' hreq
    exact linksMade_run hpending (by omega) hreq hrun'

theorem unlink_cancels_requested :
    ∃ q, requested.step anyType (.link ⟨"/a", "||", "/b"⟩) = .ok q ∧
      ((∀ acts r, Lib.Run (Lib.StepOf (step anyType)) q acts r →
          NotRequested "/a" "/b" acts →
          linksMade "/a" "/b" r.log = linksMade "/a" "/b" q.log) ↔
        pendingFor "/a" "/b" requested ≤ 1) :=
  unlink_cancels_iff anyType ⟨(), (), rfl, rfl, rfl⟩ run_requested "/a" "/b" rfl

/-- Requested twice, cancelled once, and made when its objects appear. -/
theorem unlink_leaves_second_request :
    ∃ (p q r : Planet Unit) (acts : List (PlanetAction Unit)),
      Lib.Run (Lib.StepOf (step anyType)) (init emptyTree .empty)
        [.link ⟨"/a", "=>", "/b"⟩, .link ⟨"/a", "=>", "/b"⟩] p ∧
      p.resolves ⟨"/a", "||", "/b"⟩ = false ∧
      p.step anyType (.link ⟨"/a", "||", "/b"⟩) = .ok q ∧
      Lib.Run (Lib.StepOf (step anyType)) q acts r ∧ NotRequested "/a" "/b" acts ∧
      linksMade "/a" "/b" q.log = 0 ∧ linksMade "/a" "/b" r.log = 1 := by
  refine ⟨⟨emptyTree, .empty, [⟨"/a", "?", "/b"⟩, ⟨"/a", "?", "/b"⟩], []⟩,
    ⟨emptyTree, .empty, [⟨"/a", "?", "/b"⟩], []⟩,
    ⟨linkableTree "/a" "/b",
      (SlotGraph.connect anyType.noType anyType.canReceive (linkableGraph () ()) 3 4).2, [],
      [⟨⟨"/a", "?", "/b"⟩, .sss ⟨"", "=>", ""⟩⟩]⟩,
    [.objects (linkableTree "/a" "/b") (linkableGraph () ()), .createPendingLinks],
    Lib.Run.of_foldlM rfl, rfl, rfl, Lib.Run.of_foldlM rfl, by simp [NotRequested], rfl, rfl⟩

end Rubyk.Planet
