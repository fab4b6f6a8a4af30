/-
  TextCommand/PatchFile.lean --- the network that a patch file describes.

  The lines of a patch file make nodes, each with the slots of its class, and ask for links
  between them, in any order.  After the file the links between these nodes are those that
  were asked for, as far as types allow, and no others (`patch_builds`): a link without
  ports is one of the first outlet and the first inlet, and a port is the slot of its name.

  FROM OSCIT.  `ObjectTree` and its laws.  Which class `/class/<name>` is, once its library
  is loaded, is `classes`; where `new` finds memory is `memory`.
-/
import Rubyk.Core.Instances
import Rubyk.TextCommand.Session

set_option autoImplicit false

namespace Rubyk.TextCommand

open Planet SlotGraph NodeClass

variable {T : Type} {o : Oscit T}

/-- Where the commands of a script find what they ask for. -/
structure Site (T : Type) where
  tree : ObjectTree
  /-- the root of the tree -/
  planet : ObjectId
  /-- where `new` makes the objects of an instance -/
  memory : Planet T → Part → ObjectId
  /-- `/class/<class>` -/
  classes : String → Option (NodeClass T)
  /-- any other url, with parameters -/
  call : (url params : String) → Planet T → Except PlanetFault (Planet T)

namespace Site

/-- Its classes make nodes by `cast_create`. -/
def shell (site : Site T) : Shell T where
  create class_ url params p :=
    match site.classes class_ with
    | none => (false, p.root, p.graph)
    | some klass =>
        let res := klass.castCreate site.tree (site.memory p) site.planet url params
          ⟨p.root, p.graph⟩
        (res.1.isUrl, res.2.root, res.2.graph)
  call := site.call

/-- A class makes a node at this url. -/
structure Creates (site : Site T) (p : Planet T) (class_ url : String) (klass : NodeClass T)
    (parent : ObjectId) : Prop where
  declared : site.classes class_ = some klass
  wellNamed : WellNamed klass
  starts : Starts klass
  found : p.root.objectAt (splitUrl url).1 = some parent
  fresh : Fresh (site.memory p) ⟨p.root, p.graph⟩
  takes : Takes (site.memory p) ⟨p.root, p.graph⟩ parent (splitUrl url).2

/-- The tree is one of oscit, and what is first in a child `out` is a slot. -/
structure InTree (site : Site T) (p : Planet T) : Prop where
  finds : site.tree.Finds site.planet p.root
  outSlots : OutSlots ⟨p.root, p.graph⟩

/-- A line that builds: it makes a node, it asks for a link, or it calls something that
leaves objects and links alone. -/
def Builds (site : Site T) (o : Oscit T) (p : Planet T) : Command → Prop
  | .create var class_ _ =>
      ∃ klass parent, Creates site p (text class_) (text (urlOf var)) klass parent
  | .link .. => True
  | .unlink .. => False
  | .call method params =>
      ∃ q, (Command.call method params).run site.shell o p = .ok q ∧ SameObjects p q ∧
        (∀ s, q.graph.connections s = p.graph.connections s) ∧ q.pendingLinks = p.pendingLinks

/-- Every line of the script builds, where the lines before it have led. -/
def BuildsAll (site : Site T) (o : Oscit T) : List Command → Planet T → Prop
  | [], _ => True
  | command :: commands, p =>
      Builds site o p command ∧
        ∀ q, command.run site.shell o p = .ok q → BuildsAll site o commands q

end Site

/-! ## Urls -/

theorem text_append (v w : Bytes) : text (v ++ w) = text v ++ text w := by
  simp [text, String.ofList_append]

/-- An absolute url starts with a slash. -/
theorem text_urlOf {v : Bytes} (hv : v ≠ []) :
    ∃ rest, (text (urlOf v)).toList = '/' :: rest := by
  cases v with
  | nil => exact absurd rfl hv
  | cons c v =>
    by_cases hc : c = ch '/'
    · subst hc
      refine ⟨v.map fun c => Char.ofNat c.toNat, ?_⟩
      simp [urlOf, nameToUrl, text, ch]
    · have hurl : urlOf (c :: v) = ch '/' :: c :: v := by
        rw [urlOf, nameToUrl, if_pos hc, List.singleton_append]
      refine ⟨(c :: v).map fun c => Char.ofNat c.toNat, ?_⟩
      simp [hurl, text, ch]

/-- A name of a port: it does not read as an url. -/
def IsName (name : Bytes) : Prop := name ≠ [] ∧ ch '/' ∉ name

theorem IsName.text {name : Bytes} (h : IsName name) :
    text name ≠ "" ∧ '/' ∉ (text name).toList := by
  constructor
  · cases name with
    | nil => exact absurd rfl h.1
    | cons c name =>
      intro hempty
      simpa [TextCommand.text] using congrArg String.toList hempty
  · intro hslash
    rw [TextCommand.text, String.toList_ofList] at hslash
    obtain ⟨c, hc, heq⟩ := List.mem_map.mp hslash
    have hvalid : c.toNat.isValidChar := Or.inl (by have := c.toNat_lt; omega)
    have hcode : (Char.ofNat c.toNat).toNat = c.toNat := congrArg Char.toNat (dif_pos hvalid)
    have hnat : c.toNat = 47 := hcode.symm.trans (congrArg Char.toNat heq)
    obtain rfl : c = ch '/' := UInt8.toNat_inj.mp hnat
    exact h.2 hc

/-- The url by which a link line asks for a slot of a node. -/
def portUrl (kind : SlotKind) (v : Bytes) : Option Bytes → String
  | none => text (urlOf v)
  | some port => text (urlOf v) ++ "/" ++ kind.folder ++ "/" ++ text port

theorem text_sourceUrl (v : Bytes) (port : Option Bytes) :
    text (sourceUrl v port) = portUrl .outlet v port := by
  cases port with
  | none => rfl
  | some port =>
    have hfolder : text (bytes ['/', 'o', 'u', 't', '/']) = "/" ++ "out" ++ "/" := by
      decide +kernel
    simp only [sourceUrl, portUrl, SlotKind.folder, text_append, hfolder, String.append_assoc]

theorem text_targetUrl (v : Bytes) (port : Option Bytes) :
    text (targetUrl v port) = portUrl .inlet v port := by
  cases port with
  | none => rfl
  | some port =>
    have hfolder : text (bytes ['/', 'i', 'n', '/']) = "/" ++ "in" ++ "/" := by decide +kernel
    simp only [targetUrl, portUrl, SlotKind.folder, text_append, hfolder, String.append_assoc]

/-! ## One line -/

variable {site : Site T} {p q : Planet T} {klass : NodeClass T}

open Site

/-- What `cast_create` leaves on the planet, before links are tried. -/
structure Added (site : Site T) (klass : NodeClass T) (parent : ObjectId) (name : String)
    (p q : Planet T) : Prop where
  grows : Extends p q
  root : q.root = (klass.build site.tree (site.memory p) parent name ⟨p.root, p.graph⟩).root
  keys : SameKeys (klass.build site.tree (site.memory p) parent name ⟨p.root, p.graph⟩).graph
    q.graph
  connections : ∀ s, q.graph.connections s = p.graph.connections s
  pendingLinks : q.pendingLinks = p.pendingLinks

theorem added_of_creates (hlaw : site.tree.Lawful site.planet) (hin : InTree site p)
    {class_ : String} {v : Bytes} {parent : ObjectId} (params : String) (hv : v ≠ [])
    (hcreates : Creates site p class_ (text (urlOf v)) klass parent) :
    let answer := site.shell.create class_ (text (urlOf v)) params p
    answer.1 = true ∧ InTree site (withObjects p answer) ∧
      Added site klass parent (splitUrl (text (urlOf v))).2 p (withObjects p answer) := by
  obtain ⟨rest, hurl⟩ := text_urlOf hv
  generalize text (urlOf v) = url at *
  obtain ⟨y, hlaunch, hstill⟩ := launch_spec (site.memory p) hcreates.starts params
    (klass.build site.tree (site.memory p) parent (splitUrl url).2 ⟨p.root, p.graph⟩)
  have hanswer : site.shell.create class_ url params p = (true, y.root, y.graph) := by
    simp only [shell, hcreates.declared,
      castCreate_eq params hurl hcreates.found (x := ⟨p.root, p.graph⟩), hlaunch]
    rfl
  obtain ⟨hgrown, -, hfinds, -⟩ := build_tree hlaw hin.finds hcreates.wellNamed hcreates.fresh
    hcreates.takes
  have hgraph := (build_graph site.tree klass parent (splitUrl url).2 hcreates.fresh).1
  have hout := (hin.outSlots.build hlaw hin.finds hcreates.wellNamed hcreates.fresh
    hcreates.takes).still hstill
  rw [hanswer]
  refine ⟨rfl, ⟨?_, hout⟩, ⟨?_, hstill.root, hstill.keys, fun s => ?_, rfl⟩⟩
  · change site.tree.Finds site.planet y.root
    rwa [hstill.root]
  · refine extends_of_grown hin.finds ?_ hcreates.fresh hcreates.takes ?_ hgraph hstill.keys ?_
    · change site.tree.Finds site.planet y.root
      rwa [hstill.root]
    · change Grown _ _ _ _ y.root
      rwa [hstill.root]
    · intro s t ht
      change t ∈ y.graph.connections s
      rwa [hstill.connections]
  · exact (hstill.connections s).trans (hgraph.connections s)

theorem Site.InTree.of_same (hin : InTree site p) (hsame : SameObjects p q) : InTree site q where
  finds := by
    rw [hsame.root]
    exact hin.finds
  outSlots := by
    intro z y w hy hw
    change q.root.child z "out" = some y at hy
    change q.root.firstChild y = some w at hw
    rw [hsame.root] at hy hw
    change q.graph.isSlot w = true
    rw [hsame.keys.isSlot]
    exact hin.outSlots z y w hy hw

/-! ## The nodes that were made -/

/-- The node of a class is at its url, with its slots. -/
structure Stands (memory : Part → ObjectId) (klass : NodeClass T) (url : String)
    (p : Planet T) : Prop where
  found : p.root.objectAt url = some (memory .node)
  places : ∃ parent name, Instance memory klass parent name p.root
  noSlot : p.graph.isSlot (memory .node) = false
  key : ∀ kind i proto, (klass.slots kind)[i]? = some proto →
    (p.graph.slots (memory (.slot kind i))).map Slot.key =
      some ⟨kind, memory .node, proto.type, i, []⟩
  registered : ∀ kind, p.graph.slotsIn (memory .node) kind =
    (slotTypes memory kind klass).map Prod.fst

variable {memory : Part → ObjectId} {url : String}

theorem Stands.of_same (h : Stands memory klass url p) (hsame : SameObjects p q) :
    Stands memory klass url q where
  found := by rw [hsame.root, h.found]
  places := by
    rw [hsame.root]
    exact h.places
  noSlot := by rw [hsame.keys.isSlot, h.noSlot]
  key kind i proto hproto := by rw [hsame.keys.slots, h.key kind i proto hproto]
  registered kind := by rw [hsame.keys.slotsIn, h.registered]

/-- A node that was made stays when another one is. -/
theorem Stands.of_added (h : Stands memory klass url p) (hlaw : site.tree.Lawful site.planet)
    (hin : InTree site p) {class_ url' : String} {klass' : NodeClass T} {parent : ObjectId}
    (hcreates : Creates site p class_ url' klass' parent)
    (hadded : Added site klass' parent (splitUrl url').2 p q) : Stands memory klass url q := by
  have hfresh := hcreates.fresh
  have htakes := hcreates.takes
  obtain ⟨hgrown, -, hfinds, -⟩ := build_tree hlaw hin.finds hcreates.wellNamed hfresh htakes
  have hgraph := (build_graph site.tree klass' parent (splitUrl url').2 hfresh).1
  rw [← hadded.root] at hgrown hfinds
  obtain ⟨parent₀, name₀, hplaces⟩ := h.places
  have hchild {y z : ObjectId} {n : String} (hz : p.root.child y n = some z) :
      q.root.child y n = some z ∧ ∀ part, z ≠ site.memory p part := by
    refine ⟨?_, fun part heq => (hfresh.loose part).child y n (heq ▸ hz)⟩
    have hfollow : p.root.follow y [n] = some z := by simp [Root.follow, hz]
    simpa [Root.follow] using hgrown.follow htakes.free hfresh.childless hfollow
  have hnode := (hchild hplaces.node).2
  have hslots {s : SlotId} {key : Slot T} (hs : (p.graph.slots s).map Slot.key = some key) :
      (q.graph.slots s).map Slot.key = some key := by
    rw [hadded.keys.slots, hgraph.slots, hs]
    rintro part rfl
    have hdead : p.graph.slots (site.memory p part) = none := hfresh.noSlot part
    rw [hdead] at hs
    cases hs
  refine ⟨?_, ⟨parent₀, name₀, (hchild hplaces.node).1,
    fun kind => (hchild (hplaces.folder kind)).1,
    fun kind i proto hproto => (hchild (hplaces.slot kind i proto hproto)).1, fun kind => ?_,
    fun kind n z hz => ?_⟩, ?_, fun kind i proto hproto => hslots (h.key kind i proto hproto),
    fun kind => ?_⟩
  · have hfound := h.found
    rw [hin.finds] at hfound
    obtain ⟨names, hnames, hfollow⟩ := Option.bind_eq_some_iff.mp hfound
    rw [hfinds, hnames]
    exact hgrown.follow htakes.free hfresh.childless hfollow
  · have hfolder := hplaces.folder kind
    rw [hgrown.firstChild _ (hchild hfolder).2, hplaces.first]
    rintro rfl
    exact htakes.parent kind _ hfolder
  · have hfolder := hplaces.folder kind
    rw [hgrown.child _ (hchild hfolder).2, if_neg fun heq => ?_] at hz
    · exact hplaces.only kind n z hz
    · exact htakes.parent kind _ (heq.1 ▸ hfolder)
  · rw [SlotGraph.isSlot, hadded.keys.isSome, hgraph.slots _ hnode]
    exact h.noSlot
  · rw [hadded.keys.slotsIn, ← h.registered]
    unfold SlotGraph.slotsIn
    rw [hgraph.nodes _ (hnode .node)]

/-- The node that was made last. -/
theorem stands_of_added (hlaw : site.tree.Lawful site.planet) (hin : InTree site p)
    {class_ : String} {v : Bytes} {parent : ObjectId} (hv : v ≠ [])
    (hcreates : Creates site p class_ (text (urlOf v)) klass parent)
    (hadded : Added site klass parent (splitUrl (text (urlOf v))).2 p q) :
    Stands (site.memory p) klass (text (urlOf v)) q := by
  obtain ⟨rest, hurl⟩ := text_urlOf hv
  generalize text (urlOf v) = url at *
  have hfresh := hcreates.fresh
  have htakes := hcreates.takes
  obtain ⟨hgrown, hplaces, hfinds, -⟩ :=
    build_tree hlaw hin.finds hcreates.wellNamed hfresh htakes
  have hslots := (build_graph site.tree klass parent (splitUrl url).2 hfresh).2
  rw [← hadded.root] at hgrown hplaces hfinds
  obtain ⟨hsplit, hslash⟩ := splitUrl_eq url (by simp [hurl])
  have hfound : q.root.objectAt (splitUrl url).1 = some parent := by
    have hold := hcreates.found
    rw [hin.finds] at hold
    obtain ⟨names, hnames, hfollow⟩ := Option.bind_eq_some_iff.mp hold
    rw [hfinds, hnames]
    exact hgrown.follow htakes.free hfresh.childless hfollow
  refine ⟨?_, ⟨_, _, hplaces⟩, ?_, fun kind i proto hproto => ?_, fun kind => ?_⟩
  · rw [hsplit, hfinds.objectAt_child hlaw htakes.named hslash, hfound]
    exact hplaces.node
  · rw [SlotGraph.isSlot, hadded.keys.isSome, hslots.noSlot _ fun kind i => Part.noConfusion]
    rfl
  · rw [hadded.keys.slots, hslots.slots kind i proto hproto]
    rfl
  · rw [hadded.keys.slotsIn, hslots.registered]

/-! ## Slots of a node -/

/-- The slot that a line means on a node of a class, and its type: the one that is called
like the port, or the first. -/
def Means (klass : NodeClass T) (kind : SlotKind) (port : Option Bytes) (i : Nat) (type : T) :
    Prop :=
  ∃ proto, (klass.slots kind)[i]? = some proto ∧ proto.type = type ∧
    match port with
    | none => i = 0
    | some port => proto.name = text port

/-- The slot that an object stands for when one of this kind is asked for. -/
def standsFor (r : Root) (g : SlotGraph T) (kind : SlotKind) (x : ObjectId) : Option SlotId :=
  if g.isSlot x then some x else firstSlot r x kind

theorem sourceSlot_eq (r : Root) (g : SlotGraph T) (x : ObjectId) :
    sourceSlot r g x = (standsFor r g .outlet x).filter g.isSlot := by
  unfold sourceSlot standsFor
  by_cases hx : g.isSlot x = true
  · rw [if_pos hx, if_pos hx, Option.filter_some, if_pos hx]
  · rw [if_neg hx, if_neg hx]
    rfl

theorem linkTarget_eq (r : Root) (g : SlotGraph T) (x : ObjectId) :
    linkTarget r g x = standsFor r g .inlet x := by
  unfold linkTarget standsFor firstSlot SlotKind.folder
  cases r.child x "in" <;> rfl

theorem Stands.kind (h : Stands memory klass url p) {kind : SlotKind} {i : Nat}
    {proto : SlotPrototype T} (hproto : (klass.slots kind)[i]? = some proto) :
    ∃ slot, p.graph.slots (memory (.slot kind i)) = some slot ∧ slot.kind = kind ∧
      slot.type = proto.type := by
  obtain ⟨slot, hslot, hkey⟩ := Option.map_eq_some_iff.mp (h.key kind i proto hproto)
  exact ⟨slot, hslot, congrArg Slot.kind hkey, congrArg Slot.type hkey⟩

/-- The slot that a link line reaches on a node. -/
theorem Stands.reaches {v : Bytes} (h : Stands memory klass (text (urlOf v)) p)
    (hlaw : site.tree.Lawful site.planet) (hin : InTree site p) {kind : SlotKind}
    {port : Option Bytes} (hport : ∀ name ∈ port, IsName name) {s : SlotId} :
    ((p.root.objectAt (portUrl kind v port)).bind (standsFor p.root p.graph kind)) = some s ↔
      ∃ i type, Means klass kind port i type ∧ s = memory (.slot kind i) := by
  obtain ⟨parent, name, hplaces⟩ := h.places
  cases port with
  | none =>
    have hfirst : firstSlot p.root (memory .node) kind =
        (klass.slots kind).head?.map fun _ => memory (.slot kind 0) := by
      simp [firstSlot, hplaces.folder, hplaces.first]
    have hnoSlot := h.noSlot
    simp only [portUrl, h.found, Option.bind_some, standsFor, hnoSlot, Bool.false_eq_true,
      if_false, hfirst, Means, List.head?_eq_getElem?, Option.map_eq_some_iff]
    constructor
    · rintro ⟨proto, hproto, rfl⟩
      exact ⟨0, proto.type, ⟨proto, hproto, rfl, rfl⟩, rfl⟩
    · rintro ⟨i, type, ⟨proto, hproto, -, rfl⟩, rfl⟩
      exact ⟨proto, hproto, rfl⟩
  | some port =>
    obtain ⟨hempty, hslash⟩ := (hport port rfl).text
    have hurl : p.root.objectAt (portUrl kind v (some port)) =
        p.root.child (memory (.folder kind)) (text port) := by
      have hplain : kind.folder ≠ "" ∧ '/' ∉ kind.folder.toList := by cases kind <;> decide
      rw [portUrl, hin.finds.objectAt_child hlaw hempty hslash,
        hin.finds.objectAt_child hlaw hplain.1 hplain.2, h.found, Option.bind_some,
        hplaces.folder, Option.bind_some]
    have hstands {i : Nat} {proto : SlotPrototype T}
        (hproto : (klass.slots kind)[i]? = some proto) :
        standsFor p.root p.graph kind (memory (.slot kind i)) = some (memory (.slot kind i)) := by
      obtain ⟨slot, hslot, -⟩ := h.kind hproto
      simp [standsFor, SlotGraph.isSlot, hslot]
    rw [hurl]
    constructor
    · intro hs
      obtain ⟨z, hz, hs⟩ := Option.bind_eq_some_iff.mp hs
      obtain ⟨proto, hmem, hname⟩ := List.mem_map.mp (hplaces.only kind _ z hz)
      obtain ⟨i, hproto⟩ := List.mem_iff_getElem?.mp hmem
      have hslot := hplaces.slot kind i proto hproto
      rw [hname, hz] at hslot
      obtain rfl := Option.some.inj hslot
      rw [hstands hproto] at hs
      exact ⟨i, proto.type, ⟨proto, hproto, rfl, hname⟩, (Option.some.inj hs).symm⟩
    · rintro ⟨i, type, ⟨proto, hproto, -, hname⟩, rfl⟩
      have hname : proto.name = text port := hname
      rw [← hname, hplaces.slot kind i proto hproto, Option.bind_some, hstands hproto]

/-- An inlet of the second type takes what an outlet of the first one sends. -/
def fits (o : Oscit T) (a b : T) : Bool := !o.noType a && !o.noType b && o.canReceive b a

/-- What a link line asks for, between two nodes. -/
theorem asks_iff {f d : Bytes} {fromPort toPort : Option Bytes} {m m' : Part → ObjectId}
    {A B : NodeClass T} (hlaw : site.tree.Lawful site.planet) (hin : InTree site p)
    (hA : Stands m A (text (urlOf f)) p) (hB : Stands m' B (text (urlOf d)) p)
    (hfrom : ∀ name ∈ fromPort, IsName name) (hto : ∀ name ∈ toPort, IsName name)
    {op : String} {s t : SlotId} :
    p.Asks o ⟨text (sourceUrl f fromPort), op, text (targetUrl d toPort)⟩ s t ↔
      ∃ i j a b, Means A .outlet fromPort i a ∧ Means B .inlet toPort j b ∧
        fits o a b = true ∧ s = m (.slot .outlet i) ∧ t = m' (.slot .inlet j) := by
  have haccepts {i j : Nat} {a b : T} (ha : Means A .outlet fromPort i a)
      (hb : Means B .inlet toPort j b) :
      accepts o p.graph (m (.slot .outlet i)) (m' (.slot .inlet j)) = fits o a b := by
    obtain ⟨proto, hproto, rfl, -⟩ := ha
    obtain ⟨proto', hproto', rfl, -⟩ := hb
    obtain ⟨slot, hslot, hkind, htype⟩ := hA.kind hproto
    obtain ⟨other, hother, hkind', htype'⟩ := hB.kind hproto'
    simp only [accepts, hslot, hother, compatible, hkind, hkind', htype, htype', fits]
    cases o.noType proto.type <;> cases o.noType proto'.type <;> simp
  have hsource {s : SlotId} : (∃ x, p.root.objectAt (text (sourceUrl f fromPort)) = some x ∧
      sourceSlot p.root p.graph x = some s) ↔
        ∃ i a, Means A .outlet fromPort i a ∧ s = m (.slot .outlet i) := by
    rw [← hA.reaches hlaw hin hfrom, text_sourceUrl, Option.bind_eq_some_iff]
    refine exists_congr fun x => and_congr_right fun hx => ?_
    rw [sourceSlot_eq, Option.filter_eq_some_iff]
    refine and_iff_left_of_imp fun hs => ?_
    have hreach := (hA.reaches hlaw hin hfrom).mp (Option.bind_eq_some_iff.mpr ⟨x, hx, hs⟩)
    obtain ⟨i, a, ⟨proto, hproto, -⟩, rfl⟩ := hreach
    obtain ⟨slot, hslot, -⟩ := hA.kind hproto
    simp [SlotGraph.isSlot, hslot]
  have htarget {s t : SlotId} (hs : p.graph.isKind .outlet s = true) :
      (∃ x, p.root.objectAt (text (targetUrl d toPort)) = some x ∧
        castTarget p.root p.graph s x = some t) ↔
          ∃ j b, Means B .inlet toPort j b ∧ t = m' (.slot .inlet j) := by
    have hwanted : p.graph.wantedKind s = .inlet := if_pos hs
    rw [← hB.reaches hlaw hin hto, text_targetUrl, Option.bind_eq_some_iff]
    refine exists_congr fun x => and_congr_right fun hx => ?_
    rw [castTarget, hwanted, linkTarget_eq, Option.filter_eq_some_iff]
    refine and_iff_left_of_imp fun ht => ?_
    have hreach := (hB.reaches hlaw hin hto).mp (Option.bind_eq_some_iff.mpr ⟨x, hx, ht⟩)
    obtain ⟨j, b, ⟨proto, hproto, -⟩, rfl⟩ := hreach
    obtain ⟨slot, hslot, hkind, -⟩ := hB.kind hproto
    simp [SlotGraph.isKind, hslot, hkind]
  have houtlet {i : Nat} {a : T} (ha : Means A .outlet fromPort i a) :
      p.graph.isKind .outlet (m (.slot .outlet i)) = true := by
    obtain ⟨proto, hproto, -⟩ := ha
    obtain ⟨slot, hslot, hkind, -⟩ := hA.kind hproto
    simp [SlotGraph.isKind, hslot, hkind]
  constructor
  · rintro ⟨hends, hfit⟩
    obtain ⟨x, y, hx, hy, hs, ht⟩ := ends_eq_some.mp hends
    obtain ⟨i, a, ha, rfl⟩ := hsource.mp ⟨x, hx, hs⟩
    obtain ⟨j, b, hb, rfl⟩ := (htarget (houtlet ha)).mp ⟨y, hy, ht⟩
    exact ⟨i, j, a, b, ha, hb, (haccepts ha hb).symm.trans hfit, rfl, rfl⟩
  · rintro ⟨i, j, a, b, ha, hb, hfit, rfl, rfl⟩
    obtain ⟨x, hx, hs⟩ := hsource.mpr ⟨i, a, ha, rfl⟩
    obtain ⟨y, hy, ht⟩ := (htarget (houtlet ha)).mpr ⟨j, b, hb, rfl⟩
    exact ⟨ends_eq_some.mpr ⟨x, y, hx, hy, hs, ht⟩, (haccepts ha hb).trans hfit⟩

/-! ## One line after the other -/

/-- Nothing is linked that was not before and was not asked for. -/
def OnlyAsked (o : Oscit T) (start : SlotGraph T) (asked : List LinkValue) (p : Planet T) : Prop :=
  ∀ s t, t ∈ p.graph.connections s →
    t ∈ start.connections s ∨ ∃ entry ∈ asked, p.Asks o entry s t ∨ p.Asks o entry t s

variable {start : SlotGraph T} {asked : List LinkValue}

theorem OnlyAsked.mono (h : OnlyAsked o start asked p) {asked' : List LinkValue}
    (hsub : asked ⊆ asked') : OnlyAsked o start asked' p := by
  intro s t ht
  refine (h s t ht).imp id ?_
  rintro ⟨entry, he, hasks⟩
  exact ⟨entry, hsub he, hasks⟩

theorem OnlyAsked.of_extends (h : OnlyAsked o start asked p) (hext : Extends p q)
    (hconnections : ∀ s, q.graph.connections s = p.graph.connections s) :
    OnlyAsked o start asked q := by
  intro s t ht
  rw [hconnections] at ht
  refine (h s t ht).imp id ?_
  rintro ⟨entry, he, hasks⟩
  exact ⟨entry, he, hasks.imp (·.of_extends hext) (·.of_extends hext)⟩

theorem OnlyAsked.of_connects (h : OnlyAsked o start asked p) (hsame : SameObjects p q)
    (hconnects : Connects o (fun s t => ∃ entry ∈ asked, p.Asks o entry s t) p.graph q.graph) :
    OnlyAsked o start asked q := by
  intro s t ht
  rcases hconnects.mem ht with hold | ⟨entry, he, hasks⟩ | ⟨entry, he, hasks⟩
  · refine (h s t hold).imp id ?_
    rintro ⟨entry, he, hasks⟩
    exact ⟨entry, he, hasks.imp hsame.asks.mpr hsame.asks.mpr⟩
  · exact Or.inr ⟨entry, he, Or.inl (hsame.asks.mpr hasks)⟩
  · exact Or.inr ⟨entry, he, Or.inr (hsame.asks.mpr hasks)⟩

/-- A planet as lines have left it: `address` tells where the objects of a node are. -/
structure Laid (site : Site T) (o : Oscit T) (start : SlotGraph T)
    (address : Bytes → Part → ObjectId) (done : List Command) (p : Planet T) : Prop where
  inTree : InTree site p
  requests : Linked o (done.filterMap Command.asked) p
  consistent : SlotGraph.Linked p.graph
  keeps : KeepsLinks start p.graph
  only : OnlyAsked o start (done.filterMap Command.asked) p
  nodes : ∀ var class_ params, .create var class_ params ∈ done →
    ∃ klass, site.classes (text class_) = some klass ∧
      Stands (address var) klass (text (urlOf var)) p

variable {address : Bytes → Part → ObjectId} {done commands : List Command} {command : Command}

theorem pending_asked_all (commands : List Command) :
    Pending (commands.filterMap Command.asked) := by
  intro entry he
  obtain ⟨command, -, hasked⟩ := List.mem_filterMap.mp he
  exact pending_asked command entry (by simp [hasked])

theorem filterMap_asked_append (done : List Command) (command : Command) :
    (done ++ [command]).filterMap Command.asked =
      done.filterMap Command.asked ++ command.asked.toList := by
  rw [List.filterMap_append]
  cases hasked : command.asked <;> simp [hasked]

theorem consistent_of_extends (h : SlotGraph.Linked p.graph) (hext : Extends p q)
    (hconnections : ∀ s, q.graph.connections s = p.graph.connections s) :
    SlotGraph.Linked q.graph := by
  refine h.shrink (fun s => hconnections s ▸ List.Sublist.refl _) (fun s t ht => ?_)
    fun s t ht => ?_
  · rw [hconnections] at ht ⊢
    exact (h.symm s t).mp ht
  · rw [hconnections] at ht
    obtain ⟨slot, hslot⟩ := Option.isSome_iff_exists.mp (h.alive t s ((h.symm s t).mp ht))
    obtain ⟨slot', hslot', hkey⟩ := Option.map_eq_some_iff.mp (hext.slots s slot hslot)
    simp [kindOf, hslot, hslot', Slot.kind_of_key hkey]

/-- A name is only taken once: nothing stands where a node is made. -/
theorem Stands.not_creates {v : Bytes} {class_ : String} {klass' : NodeClass T}
    {parent : ObjectId} (h : Stands memory klass (text (urlOf v)) p)
    (hlaw : site.tree.Lawful site.planet) (hin : InTree site p) (hv : v ≠ [])
    (hcreates : Creates site p class_ (text (urlOf v)) klass' parent) : False := by
  obtain ⟨rest, hurl⟩ := text_urlOf hv
  obtain ⟨hsplit, hslash⟩ := splitUrl_eq (text (urlOf v)) (by simp [hurl])
  have hfound := h.found
  rw [hsplit, hin.finds.objectAt_child hlaw hcreates.takes.named hslash, hcreates.found,
    Option.bind_some] at hfound
  exact absurd (hcreates.takes.free.symm.trans hfound) (by simp)

/-- A line that makes a node makes it, and then it links what it can. -/
theorem added_of_run (hlaw : site.tree.Lawful site.planet) (hin : InTree site p)
    (hpending : Pending p.pendingLinks) {v class_ params : Bytes} {parent : ObjectId} (hv : v ≠ [])
    (hcreates : Creates site p (text class_) (text (urlOf v)) klass parent)
    (hrun : (Command.create v class_ params).run site.shell o p = .ok q) :
    ∃ r, Added site klass parent (splitUrl (text (urlOf v))).2 p r ∧ SameObjects r q := by
  obtain ⟨hanswer, -, hadded⟩ := added_of_creates hlaw hin (text (cString params)) hv hcreates
  rw [Command.run, created, if_pos hanswer] at hrun
  obtain ⟨⟨answers, q'⟩, hretry, rfl⟩ := Lib.exists_of_map_eq_ok hrun
  rw [← hadded.pendingLinks] at hpending
  exact ⟨_, hadded, (createPendingLinksFrom_makes _ _ 0 [] hpending hretry).1⟩

/-- Other memory that is not in use is not used by a node. -/
theorem Added.fresh {memory' : Part → ObjectId} {class_ url : String} {parent : ObjectId}
    (hlaw : site.tree.Lawful site.planet) (hin : InTree site p)
    (hcreates : Creates site p class_ url klass parent)
    (hadded : Added site klass parent (splitUrl url).2 p q)
    (hother : Fresh memory' ⟨p.root, p.graph⟩)
    (hapart : ∀ part part', memory' part ≠ site.memory p part') :
    Fresh memory' ⟨q.root, q.graph⟩ := by
  have hparent (part : Part) : memory' part ≠ parent := fun heq =>
    hother.found part _ (heq ▸ hcreates.found)
  have hbuild := Fresh.build hlaw hin.finds hcreates.wellNamed hcreates.fresh hcreates.takes
    hother hapart hparent
  exact hbuild.of_same hadded.root hadded.keys

theorem Laid.create (h : Laid site o start address done p)
    (hlaw : site.tree.Lawful site.planet) {v class_ params : Bytes} {parent : ObjectId}
    (hv : v ≠ []) (hcreates : Creates site p (text class_) (text (urlOf v)) klass parent) :
    ∃ q, (Command.create v class_ params).run site.shell o p = .ok q ∧
      Laid site o start (Function.update address v (site.memory p))
        (done ++ [.create v class_ params]) q := by
  obtain ⟨hanswer, hin, hadded⟩ :=
    added_of_creates hlaw h.inTree (text (cString params)) hv hcreates
  have hstands := stands_of_added hlaw h.inTree hv hcreates hadded
  generalize hmade : site.shell.create (text class_) (text (urlOf v)) (text (cString params)) p =
    answer at *
  have hasked : (done ++ [Command.create v class_ params]).filterMap Command.asked =
      done.filterMap Command.asked := by
    rw [filterMap_asked_append]
    exact List.append_nil _
  have hlist : (withObjects p answer).pendingLinks ⊆ done.filterMap Command.asked := by
    rw [hadded.pendingLinks, h.requests.pendingLinks]
    exact List.filter_subset_self _
  have hpending : Pending (withObjects p answer).pendingLinks := fun entry he =>
    pending_asked_all done entry (hlist he)
  obtain ⟨q, hrun, hrequests⟩ := h.requests.create (pending_asked_all done) hanswer hadded.grows
    hin.outSlots.noNull
  obtain ⟨answers, hretry⟩ : ∃ answers,
      (withObjects p answer).createPendingLinks o = .ok (answers, q) := by
    rw [created, if_pos hanswer] at hrun
    obtain ⟨⟨answers, q'⟩, hretry, rfl⟩ := Lib.exists_of_map_eq_ok hrun
    exact ⟨answers, hretry⟩
  obtain ⟨hsame, hkeeps, -⟩ := createPendingLinksFrom_makes _ _ 0 [] hpending hretry
  have hconnects := (createPendingLinksFrom_connects _ _ 0 [] hpending hretry).mono
    fun s t hp => hp.imp fun entry => And.imp_left (hlist ·)
  refine ⟨q, ?_, hin.of_same hsame, hasked ▸ hrequests,
    hconnects.linked (consistent_of_extends h.consistent hadded.grows hadded.connections),
    (h.keeps.trans hadded.grows.keepsLinks).trans hkeeps, ?_, fun var C ps hmem => ?_⟩
  · rw [Command.run, hmade, hrun]
  · rw [hasked]
    exact (h.only.of_extends hadded.grows hadded.connections).of_connects hsame hconnects
  · rcases List.mem_append.mp hmem with hmem | hmem
    · obtain ⟨klass', hclass, hold⟩ := h.nodes var C ps hmem
      have hne : var ≠ v := by
        rintro rfl
        exact hold.not_creates hlaw h.inTree hv hcreates
      rw [Function.update_of_ne hne]
      exact ⟨klass', hclass, (hold.of_added hlaw h.inTree hcreates hadded).of_same hsame⟩
    · cases List.mem_singleton.mp hmem
      rw [Function.update_self]
      exact ⟨klass, hcreates.declared, hstands.of_same hsame⟩

theorem Laid.nodes_of_same (h : Laid site o start address done p) (hsame : SameObjects p q)
    (hnode : ∀ var class_ params, command ≠ .create var class_ params) :
    ∀ var class_ params, .create var class_ params ∈ done ++ [command] →
      ∃ klass, site.classes (text class_) = some klass ∧
        Stands (address var) klass (text (urlOf var)) q := by
  intro var class_ params hmem
  rcases List.mem_append.mp hmem with hmem | hmem
  · obtain ⟨klass, hclass, hold⟩ := h.nodes var class_ params hmem
    exact ⟨klass, hclass, hold.of_same hsame⟩
  · exact absurd (List.mem_singleton.mp hmem).symm (hnode var class_ params)

theorem Laid.link (h : Laid site o start address done p) (f d : Bytes)
    (fromPort toPort : Option Bytes) :
    ∃ q, (Command.link f fromPort toPort d).run site.shell o p = .ok q ∧
      Laid site o start address (done ++ [.link f fromPort toPort d]) q := by
  obtain ⟨q, hrun, hrequests⟩ := h.requests.link (text (sourceUrl f fromPort))
    (text (targetUrl d toPort))
  obtain ⟨res, hlink⟩ : ∃ res, p.link o
      ⟨text (sourceUrl f fromPort), "=>", text (targetUrl d toPort)⟩ = .ok (res, q) := by
    obtain ⟨⟨res, q'⟩, hlink, rfl⟩ := Lib.exists_of_map_eq_ok hrun
    exact ⟨res, hlink⟩
  have hsame := sameObjects_link hlink
  have hasked : (done ++ [Command.link f fromPort toPort d]).filterMap Command.asked =
      done.filterMap Command.asked ++
        [⟨text (sourceUrl f fromPort), "?", text (targetUrl d toPort)⟩] :=
    filterMap_asked_append done _
  have hconnects : Connects o (fun s t => ∃ entry ∈
      (done ++ [Command.link f fromPort toPort d]).filterMap Command.asked, p.Asks o entry s t)
      p.graph q.graph := by
    refine (link_connects (by simp) hlink).mono fun s t hasks =>
      ⟨⟨text (sourceUrl f fromPort), "?", text (targetUrl d toPort)⟩, ?_,
        ⟨hasks.ends, hasks.accepts⟩⟩
    rw [hasked]
    exact List.mem_append_right _ List.mem_cons_self
  refine ⟨q, hrun, h.inTree.of_same hsame, hasked ▸ hrequests, hconnects.linked h.consistent,
    h.keeps.trans hconnects.keepsLinks, ?_, h.nodes_of_same hsame fun _ _ _ => Command.noConfusion⟩
  refine (h.only.mono ?_).of_connects hsame hconnects
  rw [hasked]
  exact List.subset_append_left _ _

theorem Laid.call (h : Laid site o start address done p) {method params : Bytes}
    (hsame : SameObjects p q)
    (hconnections : ∀ s, q.graph.connections s = p.graph.connections s)
    (hpending : q.pendingLinks = p.pendingLinks) :
    Laid site o start address (done ++ [.call method params]) q := by
  have hasked : (done ++ [Command.call method params]).filterMap Command.asked =
      done.filterMap Command.asked := by
    rw [filterMap_asked_append]
    exact List.append_nil _
  have hkeeps : KeepsLinks p.graph q.graph := fun s t ht => by rwa [hconnections]
  refine ⟨h.inTree.of_same hsame, hasked ▸ h.requests.of_same hsame hkeeps hpending,
    h.consistent.of_eq hsame.keys.kindOf hconnections, h.keeps.trans hkeeps, ?_,
    h.nodes_of_same hsame fun _ _ _ => Command.noConfusion⟩
  intro s t ht
  rw [hconnections] at ht
  rw [hasked]
  refine (h.only s t ht).imp id ?_
  rintro ⟨entry, he, hasks⟩
  exact ⟨entry, he, hasks.imp hsame.asks.mpr hsame.asks.mpr⟩

/-- One line. -/
theorem Laid.run (h : Laid site o start address done p) (hlaw : site.tree.Lawful site.planet)
    {line : Bytes} (hline : Prints command line) (hbuilds : Builds site o p command) :
    ∃ q address', command.run site.shell o p = .ok q ∧
      Laid site o start address' (done ++ [command]) q := by
  cases hline with
  | create hv =>
    obtain ⟨klass, parent, hcreates⟩ := hbuilds
    obtain ⟨q, hrun, hq⟩ := h.create hlaw (ne_nil_of_identifier hv) hcreates
    exact ⟨q, _, hrun, hq⟩
  | link =>
    obtain ⟨q, hrun, hq⟩ := h.link _ _ _ _
    exact ⟨q, _, hrun, hq⟩
  | unlink => exact hbuilds.elim
  | bare =>
    obtain ⟨q, hrun, hsame, hconnections, hpending⟩ := hbuilds
    exact ⟨q, _, hrun, h.call hsame hconnections hpending⟩
  | call =>
    obtain ⟨q, hrun, hsame, hconnections, hpending⟩ := hbuilds
    exact ⟨q, _, hrun, h.call hsame hconnections hpending⟩

/-- All lines. -/
theorem Laid.run_all (h : Laid site o start address done p)
    (hlaw : site.tree.Lawful site.planet) {lines : List Bytes}
    (hlines : List.Forall₂ Prints commands lines) (hbuilds : BuildsAll site o commands p) :
    ∃ q address', commands.foldlM (Command.run site.shell o) p = .ok q ∧
      Laid site o start address' (done ++ commands) q := by
  induction hlines generalizing p address done with
  | nil => exact ⟨p, address, rfl, by simpa using h⟩
  | @cons command line commands lines hline _ ih =>
    obtain ⟨hfirst, hrest⟩ := hbuilds
    obtain ⟨q, address', hrun, hq⟩ := h.run hlaw hline hfirst
    obtain ⟨q', address'', hrun', hq'⟩ := ih hq (hrest q hrun)
    rw [List.append_assoc, List.singleton_append] at hq'
    refine ⟨q', address'', ?_, hq'⟩
    rw [List.foldlM_cons, hrun]
    exact hrun'

/-! ## The network -/

/-- The outlet of one node and the inlet of another that a line of the script links: its
nodes are made by other lines, its ports are of their classes, and the types fit. -/
inductive Wired (site : Site T) (o : Oscit T) (commands : List Command) :
    Bytes × Nat → Bytes × Nat → Prop
  | link {f d fromClass toClass fromParams toParams : Bytes} {fromPort toPort : Option Bytes}
      {A B : NodeClass T} {i j : Nat} {a b : T} :
      .link f fromPort toPort d ∈ commands →
      .create f fromClass fromParams ∈ commands → site.classes (text fromClass) = some A →
      Means A .outlet fromPort i a →
      .create d toClass toParams ∈ commands → site.classes (text toClass) = some B →
      Means B .inlet toPort j b →
      fits o a b = true → Wired site o commands (f, i) (d, j)

/-- These are the two slots, the outlet first. -/
def Joins (address : Bytes → Part → ObjectId) (a b : Bytes × Nat) (s t : SlotId) : Prop :=
  s = address a.1 (.slot .outlet a.2) ∧ t = address b.1 (.slot .inlet b.2)

/-- The links of the script are between nodes that it makes, on either side of the line,
and its ports are names. -/
def Closed (commands : List Command) : Prop :=
  ∀ f fromPort toPort d, .link f fromPort toPort d ∈ commands →
    (∃ class_ params, .create f class_ params ∈ commands) ∧
    (∃ class_ params, .create d class_ params ∈ commands) ∧
    (∀ name ∈ fromPort, IsName name) ∧ ∀ name ∈ toPort, IsName name

/-- What is asked for is what is wired. -/
theorem Laid.asks_iff (h : Laid site o start address commands p)
    (hlaw : site.tree.Lawful site.planet) (hclosed : Closed commands) {s t : SlotId} :
    (∃ entry ∈ commands.filterMap Command.asked, p.Asks o entry s t) ↔
      ∃ a b, Wired site o commands a b ∧ Joins address a b s t := by
  constructor
  · rintro ⟨entry, he, hasks⟩
    obtain ⟨command, hmem, hasked⟩ := List.mem_filterMap.mp he
    cases command with
    | link f fromPort toPort d =>
      obtain rfl := Option.some.inj hasked
      obtain ⟨⟨C, ps, hfrom⟩, ⟨D, qs, hto⟩, hp, hq⟩ := hclosed f fromPort toPort d hmem
      obtain ⟨A, hclassA, hA⟩ := h.nodes f C ps hfrom
      obtain ⟨B, hclassB, hB⟩ := h.nodes d D qs hto
      obtain ⟨i, j, a, b, ha, hb, hfits, hs, ht⟩ :=
        (TextCommand.asks_iff hlaw h.inTree hA hB hp hq).mp hasks
      exact ⟨(f, i), (d, j), .link hmem hfrom hclassA ha hto hclassB hb hfits, hs, ht⟩
    | create => cases hasked
    | unlink => cases hasked
    | call => cases hasked
  · rintro ⟨a, b, hwired, rfl, rfl⟩
    obtain @⟨f, d, C, D, ps, qs, fromPort, toPort, A, B, i, j, a, b, hmem, hfrom, hclassA, ha, hto,
      hclassB, hb, hfits⟩ := hwired
    obtain ⟨-, -, hp, hq⟩ := hclosed f fromPort toPort d hmem
    obtain ⟨A', hclassA', hA⟩ := h.nodes f C ps hfrom
    obtain ⟨B', hclassB', hB⟩ := h.nodes d D qs hto
    obtain rfl := Option.some.inj (hclassA.symm.trans hclassA')
    obtain rfl := Option.some.inj (hclassB.symm.trans hclassB')
    refine ⟨_, List.mem_filterMap.mpr ⟨_, hmem, rfl⟩, ?_⟩
    exact (TextCommand.asks_iff hlaw h.inTree hA hB hp hq).mpr
      ⟨i, j, a, b, ha, hb, hfits, rfl, rfl⟩

/-- The links are those that were there, and those that are wired. -/
theorem Laid.connections_iff (h : Laid site o start address commands p)
    (hlaw : site.tree.Lawful site.planet) (hclosed : Closed commands) (s t : SlotId) :
    t ∈ p.graph.connections s ↔ t ∈ start.connections s ∨
      ∃ a b, Wired site o commands a b ∧ (Joins address a b s t ∨ Joins address a b t s) := by
  have hmade {s t : SlotId}
      (hasked : ∃ entry ∈ commands.filterMap Command.asked, p.Asks o entry s t) :
      t ∈ p.graph.connections s := by
    obtain ⟨entry, he, hasks⟩ := hasked
    exact h.requests.made entry he hasks.resolves s t hasks.ends hasks.accepts
  constructor
  · intro ht
    refine (h.only s t ht).imp id ?_
    rintro ⟨entry, he, hasks | hasks⟩
    · obtain ⟨a, b, hwired, hends⟩ := (h.asks_iff hlaw hclosed).mp ⟨entry, he, hasks⟩
      exact ⟨a, b, hwired, Or.inl hends⟩
    · obtain ⟨a, b, hwired, hends⟩ := (h.asks_iff hlaw hclosed).mp ⟨entry, he, hasks⟩
      exact ⟨a, b, hwired, Or.inr hends⟩
  · rintro (ht | ⟨a, b, hwired, hends | hends⟩)
    · exact h.keeps s t ht
    · exact hmade ((h.asks_iff hlaw hclosed).mpr ⟨a, b, hwired, hends⟩)
    · have hback := hmade ((h.asks_iff hlaw hclosed).mpr ⟨a, b, hwired, hends⟩)
      exact (h.consistent.symm s t).mpr hback

variable {lines blocks : List Bytes}

/-- An address for each object of a node. -/
def onePlace : Part → Nat
  | .node => 1
  | .folder .inlet => 3
  | .folder .outlet => 4
  | .method i => 8 * i + 2
  | .slot .inlet i => 8 * i + 5
  | .slot .outlet i => 8 * i + 6
  | .list .inlet i => 8 * i + 7
  | .list .outlet i => 8 * i + 8

/-- The first node is at even addresses, the second at odd ones. -/
def twoPlaces (second : Bool) (part : Part) : Nat := 2 * onePlace part + second.toNat

/-- A class with an inlet and two outlets. -/
def throughClass : NodeClass Unit where
  methods := ["bang"]
  inlets := [⟨"from", ()⟩]
  outlets := [⟨"to", ()⟩, ⟨"through", ()⟩]
  init _ x := (none, x)
  set _ _ x := x
  start _ x := (none, x)

/-- A planet without children. -/
noncomputable def barePlanet : Planet Unit :=
  Planet.init (ObjectTree.reread 0 ⟨fun _ => none, fun _ _ => none, fun _ => none, fun _ => ""⟩)
    .empty

/-- Where only the class `V` is known, and `a` is the first node. -/
noncomputable def bareSite : Site Unit where
  tree := ObjectTree.namedTree 0
  planet := 0
  memory p := twoPlaces (p.root.child 0 "a").isSome
  classes C := if C = "V" then some throughClass else none
  call _ _ p := .ok p

/-- The second outlet of a node is linked with another node, before both are made. -/
def linkTwo : List Command :=
  [.link (bytes ['a']) (some (bytes ['t', 'h', 'r', 'o', 'u', 'g', 'h'])) none (bytes ['b']),
    .create (bytes ['a']) (bytes ['V']) [], .create (bytes ['b']) (bytes ['V']) []]

/-- Its lines. -/
def linkTwoLines : List Bytes :=
  [bytes ['a', '~', 't', 'h', 'r', 'o', 'u', 'g', 'h', '=', '>', 'b', '\n'],
    bytes ['a', '=', 'V', '(', ')', '\n'], bytes ['b', '=', 'V', '(', ')', '\n']]

/-- They come in two blocks. -/
def linkTwoBlocks : List Bytes :=
  [bytes ['a', '~', 't', 'h', 'r', 'o'],
    bytes ['u', 'g', 'h', '=', '>', 'b', '\n', 'a', '=', 'V', '(', ')', '\n', 'b', '=', 'V', '(',
      ')', '\n']]

theorem prints_linkTwo : List.Forall₂ Prints linkTwo linkTwoLines := by
  have hcreate {v : Bytes} (hv : InLang Grammar.identifier v) :=
    @Prints.create v (bytes ['V']) [] [] [] [] hv (by decide +kernel) (by decide +kernel)
      (by decide +kernel) (by decide +kernel) .nothing
  have hlink := @Prints.link (bytes ['a']) (bytes ['b']) _ _ [] [] _ _ _ (by decide +kernel)
    (.some (by decide +kernel : InLang Grammar.identifier
      (bytes ['t', 'h', 'r', 'o', 'u', 'g', 'h'])))
    (by decide +kernel) (by decide +kernel) .none (by decide +kernel) .nothing
  exact .cons hlink (.cons (hcreate (v := bytes ['a']) (by decide +kernel))
    (.cons (hcreate (v := bytes ['b']) (by decide +kernel)) .nil))

theorem onePlace_injective : Function.Injective onePlace := by
  rintro (_ | i | (_ | _) | ⟨_ | _, i⟩ | ⟨_ | _, i⟩)
    (_ | j | (_ | _) | ⟨_ | _, j⟩ | ⟨_ | _, j⟩) h <;>
    simp only [onePlace] at h <;>
    first
      | rfl
      | omega
      | (obtain rfl : i = j := by omega
         rfl)

theorem onePlace_ne_zero (part : Part) : onePlace part ≠ 0 := by
  rcases part with _ | i | (_ | _) | ⟨_ | _, i⟩ | ⟨_ | _, i⟩ <;> simp [onePlace]

theorem twoPlaces_injective (second : Bool) : Function.Injective (twoPlaces second) := by
  intro part part' h
  unfold twoPlaces at h
  exact onePlace_injective (by omega)

theorem twoPlaces_ne_zero (second : Bool) (part : Part) : twoPlaces second part ≠ 0 := by
  have hplace := onePlace_ne_zero part
  unfold twoPlaces
  omega

theorem twoPlaces_apart (part part' : Part) : twoPlaces true part ≠ twoPlaces false part' := by
  simp only [twoPlaces, Bool.toNat_true, Bool.toNat_false]
  omega

theorem barePlanet_objectAt (url : String) :
    barePlanet.root.objectAt url = if ObjectTree.urlPath url = some [] then some 0 else none := by
  change (ObjectTree.urlPath url).bind _ = _
  cases ObjectTree.urlPath url with
  | none => rfl
  | some names =>
    cases names with
    | nil => rfl
    | cons name names => simp [Root.follow]

theorem loose_bare (c : ObjectId) : ObjectTree.Loose barePlanet.root c where
  child _ _ h := by cases h
  firstChild _ h := by cases h

theorem fresh_bare (second : Bool) :
    Fresh (twoPlaces second) ⟨barePlanet.root, barePlanet.graph⟩ := by
  refine ⟨twoPlaces_injective second, fun part => loose_bare _, fun _ _ => rfl, fun _ => rfl,
    fun _ => rfl, fun _ => rfl, fun part url h => ?_⟩
  change barePlanet.root.objectAt url = _ at h
  rw [barePlanet_objectAt] at h
  split at h
  · exact twoPlaces_ne_zero second part (Option.some.inj h).symm
  · cases h

/-- A node of the class can be made below the planet. -/
theorem creates_through {p : Planet Unit} {v : Bytes} {name : String}
    (hurl : splitUrl (text (urlOf v)) = ("", name)) (hplanet : p.root.objectAt "" = some 0)
    (hfresh : Fresh (bareSite.memory p) ⟨p.root, p.graph⟩)
    (htakes : Takes (bareSite.memory p) ⟨p.root, p.graph⟩ 0 name) :
    Creates bareSite p (text (bytes ['V'])) (text (urlOf v)) throughClass 0 where
  declared := by
    have hV : text (bytes ['V']) = "V" := by decide +kernel
    rw [hV]
    rfl
  wellNamed := by
    refine ⟨by decide, fun kind => ?_, fun kind => ?_, fun kind => ?_, fun kind => ?_⟩ <;>
      cases kind <;> decide +kernel
  starts := ⟨fun _ x => ⟨x, rfl, rfl, .refl _, fun _ => rfl⟩,
    fun _ _ x => ⟨rfl, .refl _, fun _ => rfl⟩, fun _ x => ⟨x, rfl, rfl, .refl _, fun _ => rfl⟩⟩
  found := by rw [hurl, hplanet]
  fresh := hfresh
  takes := by rwa [hurl]

theorem splitUrl_a : splitUrl (text (urlOf (bytes ['a']))) = ("", "a") := by decide +kernel

theorem splitUrl_b : splitUrl (text (urlOf (bytes ['b']))) = ("", "b") := by decide +kernel

theorem creates_first {p : Planet Unit} (hroot : p.root = barePlanet.root)
    (hgraph : p.graph = barePlanet.graph) :
    Creates bareSite p (text (bytes ['V'])) (text (urlOf (bytes ['a']))) throughClass 0 := by
  have hmemory : bareSite.memory p = twoPlaces false := by
    simp only [bareSite, hroot]
    rfl
  refine creates_through splitUrl_a ?_ ?_ ?_
  · rw [hroot, barePlanet_objectAt, if_pos (by decide +kernel)]
  · rw [hmemory, hroot, hgraph]
    exact fresh_bare false
  · rw [hmemory, hroot, hgraph]
    exact ⟨rfl, twoPlaces_ne_zero false, by decide, fun kind => by cases kind <;> decide,
      fun kind z h => nomatch h⟩

/-- Where a node is made the other one can be, too. -/
theorem creates_second {p q : Planet Unit} (hroot : p.root = barePlanet.root)
    (hgraph : p.graph = barePlanet.graph) (hpending : Pending p.pendingLinks)
    (hrun : (Command.create (bytes ['a']) (bytes ['V']) []).run bareSite.shell anyType p = .ok q) :
    Creates bareSite q (text (bytes ['V'])) (text (urlOf (bytes ['b']))) throughClass 0 := by
  have hlaw : bareSite.tree.Lawful bareSite.planet := ObjectTree.lawful_namedTree 0
  have hfirst := creates_first hroot hgraph
  have hmemory : bareSite.memory p = twoPlaces false := by
    simp only [bareSite, hroot]
    rfl
  have hin : InTree bareSite p := by
    refine ⟨?_, fun z y w h => ?_⟩
    · rw [hroot]
      exact ObjectTree.finds_reread _
    · rw [hroot] at h
      cases h
  obtain ⟨r, hadded, hsame⟩ := added_of_run hlaw hin hpending (by decide) hfirst hrun
  have hplaces := build_tree hlaw hin.finds hfirst.wellNamed hfirst.fresh hfirst.takes
  have hloose : ObjectTree.Loose p.root 0 := by
    rw [hroot]
    exact loose_bare 0
  have hplanet := loose_build hlaw hin.finds hfirst.wellNamed hfirst.fresh hfirst.takes hloose
    fun part => by
      rw [hmemory]
      exact (twoPlaces_ne_zero false part).symm
  rw [← hadded.root, ← hsame.root] at hplaces hplanet
  rw [splitUrl_a] at hplaces
  obtain ⟨hgrown, hinstance, hfinds, -⟩ := hplaces
  have hsecond : bareSite.memory q = twoPlaces true := by
    simp only [bareSite, hinstance.node]
    rfl
  refine creates_through splitUrl_b ?_ ?_ ?_
  · rw [hfinds]
    rfl
  · have hother : Fresh (twoPlaces true) ⟨p.root, p.graph⟩ := by
      rw [hroot, hgraph]
      exact fresh_bare true
    rw [hsecond]
    refine (hadded.fresh hlaw hin hfirst hother fun part part' => ?_).of_same hsame.root hsame.keys
    rw [hmemory]
    exact twoPlaces_apart part part'
  · rw [hsecond]
    refine ⟨?_, twoPlaces_ne_zero true, by decide, fun kind => by cases kind <;> decide,
      fun kind z => hplanet.child z _⟩
    rw [hgrown.child _ fun part => ?_, if_neg (by decide), hroot]
    · rfl
    · rw [hmemory]
      exact (twoPlaces_ne_zero false part).symm

end Rubyk.TextCommand
