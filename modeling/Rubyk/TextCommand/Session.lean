/-
  TextCommand/Session.lean --- a `TextCommand` on its planet.

  `parse` calls the planet while it reads: an action makes a request and the planet has
  served it before the next byte is looked at.  A `Session` is the two together.

  WHAT A SCRIPT MEANS.  `Command.run` says what a command does to a planet, in terms of
  what is written on its line.  A session on the text of a script, in blocks cut
  anywhere, runs the commands one after the other.

  SILENT.  The planet reads its patch file with a silent command.  What is printed, and
  the `inspect` that is only called to be printed, is left out.

  FROM OSCIT.  A `Shell` is what a class does to create an object, and what any other
  object does when it is called.
-/
import Rubyk.Core.PendingLinks
import Rubyk.Core.RequestedLinks
import Rubyk.TextCommand.Correct
import Rubyk.TextCommand.Listen

set_option autoImplicit false

namespace Rubyk.TextCommand

open Planet SlotGraph

variable {T : Type} {o : Oscit T}

/-- What is called. -/
structure Shell (T : Type) where
  /-- `/class/<class>/new` with an url and parameters: whether the answer is an url, and
  the objects there are then -/
  create : (class_ url params : String) → Planet T → Bool × Root × SlotGraph T
  /-- any other url, with parameters -/
  call : (url params : String) → Planet T → Except PlanetFault (Planet T)

/-- The bytes of a string, one character each. -/
def text (s : Bytes) : String := String.ofList (s.map fun c => Char.ofNat c.toNat)

/-! ## Requests -/

/-- The planet with the objects that a class left. -/
def withObjects (p : Planet T) (answer : Bool × Root × SlotGraph T) : Planet T :=
  { p with root := answer.2.1, graph := answer.2.2 }

/-- `create_instance` on the answer of the class: on an url the pending links are tried. -/
def created (o : Oscit T) (p : Planet T) (answer : Bool × Root × SlotGraph T) :
    Except PlanetFault (Planet T) :=
  if answer.1 then ((withObjects p answer).createPendingLinks o).map Prod.snd
  else .ok (withObjects p answer)

/-- `root_->call(...)`, for the requests that the functions of `TextCommand` make. -/
def serve (sh : Shell T) (o : Oscit T) (p : Planet T) (request : Request) :
    Except PlanetFault (Planet T) :=
  match request.target, request.arguments with
  | .newOf class_, [.string url, .jsonOrHash params] =>
      created o p (sh.create (text class_) (text url) (text params) p)
  | .link, [.string source, .string op, .string target] =>
      (p.link o ⟨text source, text op, text target⟩).map Prod.snd
  | .object url, [.json params] => sh.call (text url) (text params) p
  -- `lib` answers, or sets, the path of class files, which is not in the planet (`sh.create` is
  -- for one path); `quit` tells the worker
  | _, _ => .ok p

/-- What the planet has to do for an entry of the log. -/
def serveEntry (sh : Shell T) (o : Oscit T) (p : Planet T) : Entry → Except PlanetFault (Planet T)
  | .called _ request => serve sh o p request
  | _ => .ok p

/-! ## Sessions -/

/-- A command and the planet it talks to. -/
structure Session (T : Type) where
  command : TextCommand
  planet : Planet T

namespace Session

/-- One byte: the parser moves past it, and what it asks for is done. -/
def readChar (sh : Shell T) (o : Oscit T) (s : Session T) (c : UInt8) :
    Except PlanetFault (Session T) :=
  let command := s.command.readChar c
  ((command.log.drop s.command.log.length).foldlM (serveEntry sh o) s.planet).map (⟨command, ·⟩)

/-- `parse`, on its planet. -/
def parse (sh : Shell T) (o : Oscit T) (s : Session T) (block : Bytes) :
    Except PlanetFault (Session T) :=
  block.foldlM (readChar sh o) s

end Session

/-! ## What a command means -/

/-- The absolute url of a name. -/
def urlOf (name : Bytes) : Bytes := nameToUrl [ch '/'] name

/-- The url a link leaves from. -/
def sourceUrl (node : Bytes) : Option Bytes → Bytes
  | none => urlOf node
  | some port => urlOf node ++ bytes ['/', 'o', 'u', 't', '/'] ++ port

/-- The url a link arrives at. -/
def targetUrl (node : Bytes) : Option Bytes → Bytes
  | none => urlOf node
  | some port => urlOf node ++ bytes ['/', 'i', 'n', '/'] ++ port

namespace Command

/-- What the command does to a planet. -/
def run (sh : Shell T) (o : Oscit T) (p : Planet T) : Command → Except PlanetFault (Planet T)
  | .create var class_ params =>
      created o p (sh.create (text class_) (text (urlOf var)) (text (cString params)) p)
  | .link fromNode fromPort toPort toNode =>
      (p.link o ⟨text (sourceUrl fromNode fromPort), "=>", text (targetUrl toNode toPort)⟩).map
        Prod.snd
  | .unlink fromNode fromPort toPort toNode =>
      (p.link o ⟨text (sourceUrl fromNode fromPort), "||", text (targetUrl toNode toPort)⟩).map
        Prod.snd
  | .call method params =>
      if method = bytes ['l', 'i', 'b'] then .ok p
      else if method = bytes ['q', 'u', 'i', 't'] ∨ method = bytes ['q'] then .ok p
      else sh.call (text (urlOf method)) (text params) p

end Command

/-! ## A session runs the commands -/

theorem ne_nil_of_identifier {w : Bytes} (h : InLang Grammar.identifier w) : w ≠ [] := by
  rintro rfl
  exact absurd h (by decide +kernel)

theorem linkArguments_of_ports {p q : Bytes} {fromPort toPort : Option Bytes} (f d op : Bytes)
    (hp : PortAfter fromPort p) (hq : PortBefore toPort q) :
    linkArguments { init with
        fromNode := urlOf f, fromPort := fromPort.getD [], toPort := toPort.getD []
        toNode := urlOf d } op =
      [.string (sourceUrl f fromPort), .string op, .string (targetUrl d toPort)] := by
  cases hp with
  | none =>
    cases hq with
    | none => rfl
    | some hd => simp [linkArguments, sourceUrl, targetUrl, ne_nil_of_identifier hd]
  | some hf =>
    cases hq with
    | none => simp [linkArguments, sourceUrl, targetUrl, ne_nil_of_identifier hf]
    | some hd =>
      simp [linkArguments, sourceUrl, targetUrl, ne_nil_of_identifier hf, ne_nil_of_identifier hd]

/-- What a command asks for is what it means. -/
theorem serve_request (sh : Shell T) {command : Command} {line : Bytes}
    (hline : Prints command line) (p : Planet T) :
    serve sh o p (command.toCall.request [ch '/']) = command.run sh o p := by
  have hcall (method ps : Bytes) : serve sh o p
      ((Command.call method ps).toCall.request [ch '/']) = (Command.call method ps).run sh o p := by
    simp only [Command.toCall, Call.request, Command.run]
    split
    · rfl
    · split <;> rfl
  cases hline with
  | create hv hw₁ hw₂ hC hps ht => rfl
  | @link f d _ _ _ _ _ _ _ hf hp hw₁ hw₂ hq hd ht =>
    have harguments := linkArguments_of_ports f d (bytes ['=', '>']) hp hq
    simp only [urlOf] at harguments
    simp only [Command.toCall, Call.request, harguments, serve, Command.run]
    rfl
  | @unlink f d _ _ _ _ _ _ _ hf hp hw₁ hw₂ hq hd ht =>
    have harguments := linkArguments_of_ports f d (bytes ['|', '|']) hp hq
    simp only [urlOf] at harguments
    simp only [Command.toCall, Call.request, harguments, serve, Command.run]
    rfl
  | bare hmethod => exact hcall _ _
  | call hmethod hps => exact hcall _ _

theorem serve_executed (sh : Shell T) {commands : List Command} {lines : List Bytes}
    (hlines : List.Forall₂ Prints commands lines) (p : Planet T) :
    (executedEntries commands).foldlM (serveEntry sh o) p =
      commands.foldlM (Command.run sh o) p := by
  induction hlines generalizing p with
  | nil => rfl
  | @cons command line commands lines hline _ ih =>
    have hentries : executedEntries (command :: commands) =
        .called command.toCall (command.toCall.request [ch '/']) :: .lineEnd ::
          executedEntries commands := rfl
    rw [hentries, List.foldlM_cons, List.foldlM_cons]
    simp only [serveEntry, serve_request sh hline]
    refine bind_congr fun q => ?_
    exact ih q

namespace Session

variable {sh : Shell T}

/-- A session has served what the parser asked for since. -/
theorem parse_eq (s : Session T) (w : Bytes) :
    s.parse sh o w =
      (((s.command.parse w).log.drop s.command.log.length).foldlM (serveEntry sh o)
        s.planet).map (⟨s.command.parse w, ·⟩) := by
  induction w generalizing s with
  | nil => simp [parse, TextCommand.parse, Except.map, pure, Except.pure]
  | cons c w ih =>
    obtain ⟨entries, hentries⟩ := readChar_log s.command c
    obtain ⟨later, hlater⟩ := parse_log (s.command.readChar c) w
    have hparse : s.parse sh o (c :: w) = s.readChar sh o c >>= fun s' => s'.parse sh o w := rfl
    have hnow : (s.command.readChar c).log.drop s.command.log.length = entries := by
      rw [← hentries, List.drop_left]
    have hall : ((s.command.readChar c).parse w).log.drop s.command.log.length =
        entries ++ later := by
      rw [← hlater, ← hentries, List.append_assoc, List.drop_left]
    rw [hparse, parse_cons, hall, List.foldlM_append, readChar, hnow]
    cases entries.foldlM (serveEntry sh o) s.planet with
    | error fault => rfl
    | ok q =>
      have hrest : ((s.command.readChar c).parse w).log.drop (s.command.readChar c).log.length =
          later := by
        rw [← hlater, List.drop_left]
      change parse sh o ⟨s.command.readChar c, q⟩ w = _
      rw [ih, hrest]
      rfl

theorem parse_append (s : Session T) (v w : Bytes) :
    s.parse sh o (v ++ w) = s.parse sh o v >>= fun s' => s'.parse sh o w :=
  List.foldlM_append

theorem parse_flatten (s : Session T) (blocks : List Bytes) :
    blocks.foldlM (parse sh o) s = s.parse sh o blocks.flatten := by
  induction blocks generalizing s with
  | nil => rfl
  | cons block blocks ih =>
    rw [List.foldlM_cons, List.flatten_cons, parse_append]
    exact bind_congr fun s' => ih s'

/-- Whole lines, from the start of one. -/
theorem parse_lines {s : Session T} {commands : List Command} {lines : List Bytes}
    (hlines : List.Forall₂ Prints commands lines) (hstart : AtStart s.command) :
    s.parse sh o lines.flatten =
      (commands.foldlM (Command.run sh o) s.planet).map (⟨s.command.parse lines.flatten, ·⟩) := by
  rw [parse_eq, (executed_all hlines hstart).2, List.drop_left, serve_executed sh hlines]

end Session

variable {sh : Shell T} {commands : List Command} {lines blocks : List Bytes} {p : Planet T}

/-- A session on a script, in blocks cut anywhere, runs its commands. -/
theorem session_runs_script (hlines : List.Forall₂ Prints commands lines)
    (hcut : blocks.flatten = lines.flatten) :
    (blocks.foldlM (Session.parse sh o) ⟨init, p⟩).map Session.planet =
      commands.foldlM (Command.run sh o) p := by
  rw [Session.parse_flatten, hcut, Session.parse_lines hlines atStart_init]
  cases commands.foldlM (Command.run sh o) p <;> rfl

/-- A planet where `/a` is an outlet and, once it is created, `/b` an inlet. -/
def twoUrls (both : Bool) : Root where
  objectAt url := if url = "/a" then some 0 else if both && url = "/b" then some 1 else none
  child _ _ := none
  firstChild _ := none
  url _ := ""

/-- The slots at the two urls. -/
def twoSlots (both : Bool) : SlotGraph Unit where
  slots s :=
    if s = 0 then some ⟨.outlet, 0, (), 0, []⟩
    else if both && s = 1 then some ⟨.inlet, 1, (), 0, []⟩ else none
  nodes _ := none
  sIdCounter := 0

/-- Whatever is created is `/b`. -/
def twoUrlsShell : Shell Unit where
  create _ _ _ _ := (true, twoUrls true, twoSlots true)
  call _ _ p := .ok p

/-- A link and, after it, one of its ends. -/
def linkFirst : List Command :=
  [.link (bytes ['a']) none none (bytes ['b']), .create (bytes ['b']) (bytes ['V']) []]

/-- Its text, cut in the second line. -/
def linkFirstBlocks : List Bytes :=
  [bytes ['a', '=', '>', 'b', '\n', 'b', '='], bytes ['V', '(', ')', '\n']]

/-- Its lines. -/
def linkFirstLines : List Bytes :=
  [bytes ['a', '=', '>', 'b', '\n'], bytes ['b', '=', 'V', '(', ')', '\n']]

theorem prints_linkFirst : List.Forall₂ Prints linkFirst linkFirstLines := by
  have hlink := @Prints.link (bytes ['a']) (bytes ['b']) _ _ [] [] _ _ _ (by decide +kernel) .none
    (by decide +kernel) (by decide +kernel) .none (by decide +kernel) .nothing
  have hcreate := @Prints.create (bytes ['b']) (bytes ['V']) [] [] [] [] (by decide +kernel)
    (by decide +kernel) (by decide +kernel) (by decide +kernel) (by decide +kernel) .nothing
  exact .cons hlink (.cons hcreate .nil)

theorem session_runs_script_two :
    (linkFirstBlocks.foldlM (Session.parse twoUrlsShell anyType)
        ⟨init, Planet.init (twoUrls false) (twoSlots false)⟩).map Session.planet =
      linkFirst.foldlM (Command.run twoUrlsShell anyType)
        (Planet.init (twoUrls false) (twoSlots false)) :=
  session_runs_script prints_linkFirst (by decide +kernel)

/-! ## Patches -/

/-- The entry that a line asks to be linked, as it is kept. -/
def Command.asked : Command → Option LinkValue
  | .link fromNode fromPort toPort toNode =>
      some ⟨text (sourceUrl fromNode fromPort), "?", text (targetUrl toNode toPort)⟩
  | _ => none

/-- A command that takes nothing back: what it creates is added, what it calls leaves
objects and links alone, and it does not unlink. -/
def Grows (sh : Shell T) (o : Oscit T) (p : Planet T) : Command → Prop
  | .create var class_ params =>
      let answer := sh.create (text class_) (text (urlOf var)) (text (cString params)) p
      answer.1 = true ∧ Extends p (withObjects p answer) ∧
        ∀ val, (withObjects p answer).reachesNullSlot val = false
  | .link .. => True
  | .unlink .. => False
  | .call method params =>
      ∃ q, (Command.call method params).run sh o p = .ok q ∧ SameObjects p q ∧
        KeepsLinks p.graph q.graph ∧ q.pendingLinks = p.pendingLinks

/-- A script that only adds. -/
def OnlyAdds (sh : Shell T) (o : Oscit T) : List Command → Planet T → Prop
  | [], _ => True
  | command :: commands, p =>
      Grows sh o p command ∧ ∀ q, command.run sh o p = .ok q → OnlyAdds sh o commands q

/-- All that was asked for is made, or is waiting for an object. -/
structure Linked (o : Oscit T) (asked : List LinkValue) (p : Planet T) : Prop where
  pendingLinks : p.pendingLinks = asked.filter fun entry => !p.resolves entry
  made : ∀ entry ∈ asked, p.resolves entry = true → Made o p entry
  noNull : ∀ val, p.reachesNullSlot val = false

variable {asked : List LinkValue} {q : Planet T} {command : Command}

theorem Linked.of_same (h : Linked o asked p) (hsame : SameObjects p q)
    (hkeeps : KeepsLinks p.graph q.graph) (hpending : q.pendingLinks = p.pendingLinks) :
    Linked o asked q where
  pendingLinks := by
    rw [hpending, h.pendingLinks]
    simp only [hsame.resolves]
  made entry he hres := by
    rw [hsame.resolves] at hres
    exact (h.made entry he hres).of_same hsame hkeeps
  noNull val := (hsame.reachesNullSlot val).trans (h.noNull val)

theorem Linked.link (h : Linked o asked p) (source target : String) :
    ∃ q, (p.link o ⟨source, "=>", target⟩).map Prod.snd = .ok q ∧
      Linked o (asked ++ [⟨source, "?", target⟩]) q := by
  have hurls : p.resolves ⟨source, "=>", target⟩ = p.resolves ⟨source, "?", target⟩ := rfl
  cases hres : p.resolves ⟨source, "=>", target⟩ with
  | false =>
    refine ⟨(p.addPendingLink ⟨source, "=>", target⟩).2, ?_, ?_, ?_, h.noNull⟩
    · rw [link_of_not_resolves hres]
      rfl
    · have hkept : [(⟨source, "?", target⟩ : LinkValue)].filter (fun entry => !p.resolves entry) =
          [⟨source, "?", target⟩] := by
        simp [← hurls, hres]
      have hlist : (p.addPendingLink ⟨source, "=>", target⟩).2.pendingLinks =
          p.pendingLinks ++ [⟨source, "?", target⟩] := rfl
      have hresolves : (p.addPendingLink ⟨source, "=>", target⟩).2.resolves = p.resolves := rfl
      rw [hlist, hresolves, List.filter_append, hkept, h.pendingLinks]
    · intro entry he hentry
      rcases List.mem_append.mp he with he | he
      · exact h.made entry he hentry
      · obtain rfl := List.mem_singleton.mp he
        exact absurd (hentry.symm.trans (hurls.symm.trans hres)) (by decide)
  | true =>
    obtain ⟨⟨res, q⟩, hlink⟩ : ∃ r, p.link o ⟨source, "=>", target⟩ = .ok r := by
      rcases link_cases (o := o) hres (h.noNull _) with ⟨slot, hlink, -⟩ | ⟨text, hlink, -⟩
      · exact ⟨_, hlink⟩
      · exact ⟨_, hlink⟩
    have hsame := sameObjects_link hlink
    obtain ⟨hkeeps, hmade⟩ := link_makes (by simp) hlink
    obtain ⟨hpending, -⟩ := pendingLinks_link hres hlink
    have hq := h.of_same hsame hkeeps hpending
    refine ⟨q, by rw [hlink]; rfl, ?_, ?_, hq.noNull⟩
    · have hkept : [(⟨source, "?", target⟩ : LinkValue)].filter (fun entry => !q.resolves entry) =
          [] := by
        simp [hsame.resolves, ← hurls, hres]
      rw [List.filter_append, hkept, List.append_nil, hq.pendingLinks]
    · intro entry he hentry
      rcases List.mem_append.mp he with he | he
      · exact hq.made entry he hentry
      · obtain rfl := List.mem_singleton.mp he
        exact hmade hres

theorem Linked.create (h : Linked o asked p) (hpending : Pending asked)
    {answer : Bool × Root × SlotGraph T} (hanswer : answer.1 = true)
    (hext : Extends p (withObjects p answer))
    (hnull : ∀ val, (withObjects p answer).reachesNullSlot val = false) :
    ∃ q, created o p answer = .ok q ∧ Linked o asked q := by
  have hkept : Pending (withObjects p answer).pendingLinks := by
    intro entry he
    change entry ∈ p.pendingLinks at he
    rw [h.pendingLinks] at he
    exact hpending entry (List.mem_of_mem_filter he)
  obtain ⟨answers, q, hcreate, hsame, hkeeps, hlist, hmade⟩ :=
    createPendingLinks_makes (o := o) hkept fun entry _ => hnull entry
  refine ⟨q, ?_, ?_, fun entry he hres => ?_, fun val => ?_⟩
  · rw [created, if_pos hanswer, hcreate]
    rfl
  · have hbefore : (withObjects p answer).pendingLinks = p.pendingLinks := rfl
    rw [hlist, hbefore, h.pendingLinks, List.filter_filter]
    refine List.filter_congr fun entry _ => ?_
    rw [hsame.resolves]
    cases hres : p.resolves entry with
    | false => simp
    | true => simp [(hext.resolves entry hres).1]
  · cases hbefore : p.resolves entry with
    | true => exact ((h.made entry he hbefore).of_extends hbefore hext).of_same hsame hkeeps
    | false =>
      refine hmade entry ?_ hres
      change entry ∈ p.pendingLinks
      rw [h.pendingLinks]
      exact List.mem_filter.mpr ⟨he, by simp [hbefore]⟩
  · exact (hsame.reachesNullSlot val).trans (hnull val)

/-- One line. -/
theorem Linked.run (h : Linked o asked p) (hpending : Pending asked)
    (hgrows : Grows sh o p command) :
    ∃ q, command.run sh o p = .ok q ∧ Linked o (asked ++ command.asked.toList) q := by
  cases command with
  | create var class_ params =>
    obtain ⟨hanswer, hext, hnull⟩ := hgrows
    have hnothing : (Command.create var class_ params).asked.toList = [] := rfl
    rw [hnothing, List.append_nil]
    exact h.create hpending hanswer hext hnull
  | link fromNode fromPort toPort toNode => exact h.link _ _
  | unlink fromNode fromPort toPort toNode => exact hgrows.elim
  | call method params =>
    obtain ⟨q, hrun, hsame, hkeeps, hlist⟩ := hgrows
    exact ⟨q, hrun, by simpa [Command.asked] using h.of_same hsame hkeeps hlist⟩

theorem pending_asked (command : Command) : Pending command.asked.toList := by
  intro entry he
  cases command with
  | link fromNode fromPort toPort toNode =>
    obtain rfl := List.mem_singleton.mp he
    rfl
  | create => cases he
  | unlink => cases he
  | call => cases he

/-- All lines. -/
theorem Linked.run_all (h : Linked o asked p) (hpending : Pending asked)
    (hpatch : OnlyAdds sh o commands p) :
    ∃ q, commands.foldlM (Command.run sh o) p = .ok q ∧
      Linked o (asked ++ commands.filterMap Command.asked) q := by
  induction commands generalizing p asked with
  | nil => exact ⟨p, rfl, by simpa using h⟩
  | cons command commands ih =>
    obtain ⟨hgrows, hrest⟩ := hpatch
    obtain ⟨q, hrun, hq⟩ := h.run hpending hgrows
    obtain ⟨q', hrun', hq'⟩ := ih hq (fun entry he => by
      rcases List.mem_append.mp he with he | he
      · exact hpending entry he
      · exact pending_asked command entry he) (hrest q hrun)
    refine ⟨q', ?_, ?_⟩
    · rw [List.foldlM_cons, hrun]
      exact hrun'
    · have hasked : (command :: commands).filterMap Command.asked =
          command.asked.toList ++ commands.filterMap Command.asked := by
        cases hask : command.asked <;> simp [hask]
      rwa [hasked, ← List.append_assoc]

/-- The planet after its patch file: it does not matter on which line a link is asked for.
It is there if both its ends are, and it is kept for later if one of them is not. -/
theorem patch_links (hlines : List.Forall₂ Prints commands lines)
    (hcut : blocks.flatten = lines.flatten) (hnone : p.pendingLinks = [])
    (hnull : ∀ val, p.reachesNullSlot val = false) (hpatch : OnlyAdds sh o commands p) :
    ∃ s, blocks.foldlM (Session.parse sh o) ⟨init, p⟩ = .ok s ∧
      Linked o (commands.filterMap Command.asked) s.planet := by
  have hstart : Linked o [] p := ⟨hnone, by simp, hnull⟩
  obtain ⟨q, hrun, hq⟩ := hstart.run_all (fun _ he => by cases he) hpatch
  refine ⟨⟨init.parse lines.flatten, q⟩, ?_, hq⟩
  rw [Session.parse_flatten, hcut, Session.parse_lines hlines atStart_init, hrun]
  rfl

theorem extends_twoUrls {p : Planet Unit} (hroot : p.root = twoUrls false)
    (hgraph : p.graph = twoSlots false) :
    Extends p (withObjects p (true, twoUrls true, twoSlots true)) where
  resolves val hres := by
    have hurl (url : String) (h : ((twoUrls false).objectAt url).isSome = true) :
        (twoUrls false).objectAt url = some 0 ∧ (twoUrls true).objectAt url = some 0 := by
      by_cases ha : url = "/a" <;> simp_all [twoUrls]
    rw [Planet.resolves, hroot, Bool.and_eq_true] at hres
    obtain ⟨hsource, hsource'⟩ := hurl _ hres.1
    obtain ⟨htarget, htarget'⟩ := hurl _ hres.2
    constructor
    · simp [Planet.resolves, withObjects, hsource', htarget']
    · simp only [Planet.ends, withObjects, hroot, hgraph, hsource, hsource', htarget, htarget']
      rfl
  slots s slot hslot := by
    rw [hgraph] at hslot
    by_cases h0 : s = 0 <;> simp_all [twoSlots, withObjects]
  keepsLinks s t ht := by
    rw [hgraph] at ht
    by_cases h0 : s = 0 <;> simp_all [twoSlots, connections]

theorem patch_links_two :
    ∃ s, linkFirstBlocks.foldlM (Session.parse twoUrlsShell anyType)
        ⟨init, Planet.init (twoUrls false) (twoSlots false)⟩ = .ok s ∧
      Linked anyType (linkFirst.filterMap Command.asked) s.planet := by
  have hnull (both : Bool) (p : Planet Unit) (hroot : p.root = twoUrls both)
      (hgraph : p.graph = twoSlots both) (val : LinkValue) : p.reachesNullSlot val = false := by
    simp only [reachesNullSlot, hroot]
    split <;> simp [twoUrls]
  refine patch_links prints_linkFirst (by decide +kernel) rfl (hnull false _ rfl rfl)
    ⟨trivial, fun q hq => ⟨⟨rfl, ?_, hnull true _ rfl rfl⟩, fun _ _ => trivial⟩⟩
  have hres : (Planet.init (twoUrls false) (twoSlots false)).resolves
      ⟨text (sourceUrl (bytes ['a']) none), "=>", text (targetUrl (bytes ['b']) none)⟩ = false := by
    decide +kernel
  rw [Command.run, link_of_not_resolves hres] at hq
  obtain rfl := Except.ok.inj hq
  exact extends_twoUrls rfl rfl

end Rubyk.TextCommand
