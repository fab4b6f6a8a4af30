/-
  TextCommand/Correct.lean --- a command that is written on a line is executed.

  Each form of a line is a sequence of pieces, and the pieces fill the strings the
  command reads.  What was in the other strings before does not matter: the line of a
  command writes every string its function reads, except those that `clear` empties.
-/
import Rubyk.TextCommand.Pieces

set_option autoImplicit false

namespace Rubyk.TextCommand

variable {m : TextCommand} {w t : Bytes}

/-! ## What a call asks for -/

/-- The request of a call, with names relative to a directory. -/
def Call.request (directory : Bytes) : Call → Request
  | .createInstance var class_ parameterString =>
      ⟨.newOf class_,
        [.string (nameToUrl directory var), .jsonOrHash (cString parameterString)]⟩
  | .createLink fromNode fromPort toPort toNode =>
      ⟨.link, linkArguments
        { init with
          fromNode := nameToUrl directory fromNode, fromPort := fromPort
          toPort := toPort, toNode := nameToUrl directory toNode } (bytes ['=', '>'])⟩
  | .removeLink fromNode fromPort toPort toNode =>
      ⟨.link, linkArguments
        { init with
          fromNode := nameToUrl directory fromNode, fromPort := fromPort
          toPort := toPort, toNode := nameToUrl directory toNode } (bytes ['|', '|'])⟩
  | .executeCommand method parameterString =>
      if method = bytes ['l', 'i', 'b'] then ⟨.lib, [.json parameterString]⟩
      else if method = bytes ['q', 'u', 'i', 't'] ∨ method = bytes ['q'] then ⟨.quit, []⟩
      else ⟨.object (nameToUrl directory method), [.json parameterString]⟩

/-! ## Between lines -/

/-- The parser between two lines. -/
structure AtStart (m : TextCommand) : Prop where
  state : m.currentState = 1 ∨ m.currentState = 82
  token : m.token = []
  var : m.var = []
  class_ : m.class_ = []
  parameterString : m.parameterString = []
  fromPort : m.fromPort = []
  toPort : m.toPort = []
  currentDirectory : m.currentDirectory = [ch '/']

theorem atStart_init : AtStart init := ⟨Or.inl rfl, rfl, rfl, rfl, rfl, rfl, rfl, rfl⟩

theorem AtStart.running (h : AtStart m) : Running m := by
  rcases h.state with hs | hs <;> rw [Running, hs] <;> decide

/-- The parser after a command was executed: one call, and ready for a line. -/
def Executed (m : TextCommand) (command : Command) (m' : TextCommand) : Prop :=
  AtStart m' ∧ m'.log =
    m.log ++ [.called command.toCall (command.toCall.request [ch '/']), .lineEnd]

/-! ## The transitions of lines -/

/-- What the lines of commands take of the transition table: states, the class of the byte,
the state after it, the actions. -/
def commandRows : List (List Nat × Cls × Nat × List Act) :=
  [([3], .newline, 82, [.prompt]), ([19], .hash, 3, []),
    ([4, 80], .space, 5, [.setVar, .setFrom]), ([4, 80], .tab, 5, [.setVar, .setFrom]),
    ([4, 80], .equal, 6, [.setVar, .setFrom]), ([4, 80], .bar, 42, [.setVar, .setFrom]),
    ([4, 80], .tilde, 75, [.setVar, .setFrom]), ([4, 80], .leftParen, 49, [.setMethod]),
    ([4, 80], .newline, 82, [.setMethod, .executeCommand, .prompt]),
    ([5], .equal, 6, []), ([5], .bar, 42, []),
    ([76, 79], .space, 77, [.setVar, .setFromPort]),
    ([76, 79], .tab, 77, [.setVar, .setFromPort]),
    ([76, 79], .equal, 78, [.setVar, .setFromPort]),
    ([76, 79], .bar, 42, [.setVar, .setFromPort]),
    ([77], .equal, 78, []), ([77], .bar, 42, []), ([6, 78], .greater, 36, []),
    ([42], .bar, 43, []), ([6], .space, 7, []), ([6], .tab, 7, []),
    ([8], .leftParen, 9, [.setClass]), ([58], .newline, 82, [.executeCommand, .prompt])]

/-- The states that skip blanks in the lines of commands. -/
def blankStates : List Nat := [5, 7, 19, 77]

theorem commandRows_spec :
    (∀ x ∈ commandRows, ∀ q ∈ x.1, delta q x.2.1 = x.2.2) ∧
      ∀ q ∈ blankStates, SkipsBlanks q := by
  decide +kernel

theorem delta_of_row {states : List Nat} {k : Cls} {q q' : Nat} {acts : List Act}
    (hrow : (states, k, q', acts) ∈ commandRows) (hq : q ∈ states) : delta q k = (q', acts) :=
  commandRows_spec.1 _ hrow q hq

theorem delta_of_single {k : Cls} {q q' : Nat} {acts : List Act}
    (hrow : ([q], k, q', acts) ∈ commandRows) : delta q k = (q', acts) :=
  delta_of_row hrow (List.mem_singleton_self q)

/-! ## The end of a line -/

/-- The states in which a command is complete, with the actions that execute it. -/
def tailContexts : List (Nat × List Act) :=
  [(18, [.createInstance]), (37, [.setVar, .createLink]), (39, [.setVar, .createLink]),
    (40, [.setVar, .createLink]), (41, [.setVar, .createLink]), (44, [.setVar, .removeLink]),
    (46, [.setVar, .removeLink]), (47, [.setVar, .removeLink]), (48, [.setVar, .removeLink])]

theorem delta_tail : ∀ x ∈ tailContexts, Quiet x.2 ∧ x.1 ≠ 0 ∧ x.1 < 84 ∧
    delta x.1 .space = (19, x.2) ∧ delta x.1 .tab = (19, x.2) ∧ delta x.1 .hash = (3, x.2) ∧
    delta x.1 .newline = (82, x.2 ++ [.prompt]) := by
  decide +kernel

theorem delta_comment_end : delta 3 .newline = (82, [.prompt]) :=
  delta_of_single (by decide)

theorem skipsBlanks_19 : SkipsBlanks 19 ∧ delta 19 .hash = (3, []) :=
  ⟨commandRows_spec.2 19 (by decide), delta_of_single (by decide)⟩

/-- What the line ends with executes the command, whatever comment it has. -/
theorem parse_tail {acts : List Act} (hctx : (m.currentState, acts) ∈ tailContexts)
    (ht : Tail t) :
    m.parse (t ++ [ch '\n']) =
      { (actAll 0 acts m).clear.note .lineEnd with currentState := 82 } := by
  obtain ⟨hquiet, h0, hlt, hspace, htab, hhash, hnewline⟩ := delta_tail _ hctx
  have hm : Running m := ⟨h0, hlt⟩
  have hnl : Cls.of (ch '\n') = .newline := by decide
  cases ht with
  | nothing =>
    have hacts : Plain (acts ++ [.prompt]) := by
      obtain ⟨⟨herror, hgoto⟩, -, -⟩ := hquiet
      simp [Plain, herror, hgoto]
    rw [List.nil_append, parse_cons, parse_nil, readChar_plain hm (hnl ▸ hnewline) hacts]
    simp only [actAll, List.foldl_append, List.foldl_cons, List.foldl_nil]
    have hsame := actAll_quiet hquiet (ch '\n') 0 m 82
    simp only [actAll] at hsame
    rw [hsame]
    rfl
  | @comment w text hw htext =>
    have hc : Cls.of (ch '#') = .hash := by decide
    have hblanks := parse_blanks_then ⟨hspace, htab⟩ skipsBlanks_19.1 hhash skipsBlanks_19.2
      hquiet (by decide) hm hw hc
    have hsplit : (w ++ ch '#' :: text) ++ [ch '\n'] =
        (w ++ [ch '#']) ++ (text ++ [ch '\n']) := by simp
    have h3 : Running { actAll 0 acts m with currentState := 3 } := by
      rw [Running]
      exact ⟨by simp, by simp⟩
    rw [hsplit, parse_append, hblanks, parse_append, parse_comment rfl htext, parse_cons,
      parse_nil, readChar_plain h3 (hnl ▸ delta_comment_end) (by decide)]
    rfl

/-! ## The beginning of a line -/

theorem AtStart.letterContext (h : AtStart m) :
    (m.currentState, Grammar.identifier, [4, 80]) ∈ letterContexts := by
  rcases h.state with hs | hs <;> rw [hs] <;> decide

/-- The name a line starts with. -/
theorem parse_firstName (h : AtStart m) (hw : InLang Grammar.identifier w) :
    ∃ q ∈ [4, 80], m.parse w = { m with token := w, currentState := q } := by
  obtain ⟨q, hq, heq⟩ := parse_letters h.letterContext h.running hw
  exact ⟨q, hq, by rw [heq, h.token, List.nil_append]⟩

theorem delta_firstName : ∀ q ∈ [4, 80],
    delta q .space = (5, [.setVar, .setFrom]) ∧ delta q .tab = (5, [.setVar, .setFrom]) ∧
    delta q .equal = (6, [.setVar, .setFrom]) ∧ delta q .bar = (42, [.setVar, .setFrom]) ∧
    delta q .tilde = (75, [.setVar, .setFrom]) ∧ delta q .leftParen = (49, [.setMethod]) ∧
    delta q .newline = (82, [.setMethod, .executeCommand, .prompt]) := fun _ hq =>
  ⟨delta_of_row (by decide) hq, delta_of_row (by decide) hq, delta_of_row (by decide) hq,
    delta_of_row (by decide) hq, delta_of_row (by decide) hq, delta_of_row (by decide) hq,
    delta_of_row (by decide) hq⟩

theorem delta_afterName : SkipsBlanks 5 ∧ delta 5 .equal = (6, []) ∧
    delta 5 .bar = (42, []) :=
  ⟨commandRows_spec.2 5 (by decide), delta_of_single (by decide), delta_of_single (by decide)⟩

theorem delta_fromPort : ∀ q ∈ [76, 79],
    delta q .space = (77, [.setVar, .setFromPort]) ∧
    delta q .tab = (77, [.setVar, .setFromPort]) ∧
    delta q .equal = (78, [.setVar, .setFromPort]) ∧
    delta q .bar = (42, [.setVar, .setFromPort]) := fun _ hq =>
  ⟨delta_of_row (by decide) hq, delta_of_row (by decide) hq, delta_of_row (by decide) hq,
    delta_of_row (by decide) hq⟩

theorem delta_afterPort : SkipsBlanks 77 ∧ delta 77 .equal = (78, []) ∧
    delta 77 .bar = (42, []) :=
  ⟨commandRows_spec.2 77 (by decide), delta_of_single (by decide), delta_of_single (by decide)⟩

theorem running_of_mem {q : Nat} {l : List Nat} (hl : ∀ q ∈ l, q ≠ 0 ∧ q < 84)
    (hq : m.currentState = q) (hmem : q ∈ l) : Running m := by
  rw [Running, hq]
  exact hl q hmem

/-- A name and the sign after it, with blanks between them. -/
theorem parse_var {v w : Bytes} {c : UInt8} {k : Cls} {q₂ : Nat} (h : AtStart m)
    (hv : InLang Grammar.identifier v) (hw : Blanks w) (hc : Cls.of c = k)
    (hk : (k = .equal ∧ q₂ = 6) ∨ (k = .bar ∧ q₂ = 42)) :
    m.parse (v ++ (w ++ [c])) =
      { m with token := [], var := v, fromNode := v, currentState := q₂ } := by
  obtain ⟨q, hq, heq⟩ := parse_firstName h hv
  obtain ⟨hspace, htab, hequal, hbar, -⟩ := delta_firstName q hq
  have hm : Running { m with token := v, currentState := q } :=
    running_of_mem (l := [4, 80]) (by decide) rfl hq
  have hthen : ({ m with token := v, currentState := q } : TextCommand).parse (w ++ [c]) =
      { actAll 0 [.setVar, .setFrom] { m with token := v, currentState := q } with
        currentState := q₂ } := by
    rcases hk with ⟨rfl, rfl⟩ | ⟨rfl, rfl⟩
    · exact parse_blanks_then ⟨hspace, htab⟩ delta_afterName.1 hequal delta_afterName.2.1
        (by decide) (by decide) hm hw hc
    · exact parse_blanks_then ⟨hspace, htab⟩ delta_afterName.1 hbar delta_afterName.2.2
        (by decide) (by decide) hm hw hc
  rw [parse_append, heq, hthen]
  rfl

/-- A name, its port and the sign after it, with blanks before the sign. -/
theorem parse_from {f p w : Bytes} {c : UInt8} {k : Cls} {fromPort : Option Bytes}
    (h : AtStart m) (hf : InLang Grammar.identifier f) (hp : PortAfter fromPort p)
    (hw : Blanks w) (hc : Cls.of c = k) (hk : k = .equal ∨ k = .bar) :
    ∃ q₂ var, (k = .equal → q₂ = 6 ∨ q₂ = 78) ∧ (k = .bar → q₂ = 42) ∧
      m.parse (f ++ (p ++ (w ++ [c]))) =
        { m with
          token := []
          var := var
          fromNode := f
          fromPort := fromPort.getD []
          currentState := q₂ } := by
  cases hp with
  | none =>
    rcases hk with rfl | rfl
    · refine ⟨6, f, by simp, by simp, ?_⟩
      rw [List.nil_append, parse_var h hf hw hc (Or.inl ⟨rfl, rfl⟩)]
      simp [h.fromPort]
    · refine ⟨42, f, by simp, by simp, ?_⟩
      rw [List.nil_append, parse_var h hf hw hc (Or.inr ⟨rfl, rfl⟩)]
      simp [h.fromPort]
  | @some p hp =>
    obtain ⟨q, hq, heq⟩ := parse_firstName h hf
    obtain ⟨-, -, -, -, htilde, -⟩ := delta_firstName q hq
    have hm : Running { m with token := f, currentState := q } :=
      running_of_mem (l := [4, 80]) (by decide) rfl hq
    have hread := readChar_plain (c := ch '~') hm htilde (by decide)
    have h75 : (75, Grammar.identifier, [76, 79]) ∈ letterContexts := by decide
    have hm75 : (75 : Nat) ≠ 0 ∧ 75 < 84 := by decide
    obtain ⟨q', hq', heq'⟩ := parse_letters (m := actAll (ch '~') [.setVar, .setFrom]
      { m with token := f, currentState := 75 }) h75 hm75 hp
    obtain ⟨hspace, htab, hequal, hbar⟩ := delta_fromPort q' hq'
    have hm' : Running { m with
        token := p, var := f, fromNode := f, currentState := q' } :=
      running_of_mem (l := [76, 79]) (by decide) rfl hq'
    have hname : m.parse (f ++ ch '~' :: p) =
        { m with token := p, var := f, fromNode := f, currentState := q' } := by
      rw [parse_append, heq, parse_cons, hread, heq']
      rfl
    have hsplit : f ++ (ch '~' :: p ++ (w ++ [c])) = (f ++ ch '~' :: p) ++ (w ++ [c]) := by simp
    rw [hsplit, parse_append, hname]
    rcases hk with rfl | rfl
    · refine ⟨78, p, by simp, by simp, ?_⟩
      rw [parse_blanks_then ⟨hspace, htab⟩ delta_afterPort.1 hequal delta_afterPort.2.1
        (by decide) (by decide) hm' hw hc]
      rfl
    · refine ⟨42, p, by simp, by simp, ?_⟩
      rw [parse_blanks_then ⟨hspace, htab⟩ delta_afterPort.1 hbar delta_afterPort.2.2
        (by decide) (by decide) hm' hw hc]
      rfl

/-! ## Links -/

theorem delta_greater : delta 6 .greater = (36, []) ∧ delta 78 .greater = (36, []) ∧
    delta 42 .bar = (43, []) := by
  have hrow : ([6, 78], Cls.greater, 36, []) ∈ commandRows := by decide
  exact ⟨delta_of_row hrow (by decide), delta_of_row hrow (by decide),
    delta_of_single (by decide)⟩

/-- The first half of a line of a link, up to its operator. -/
theorem parse_source {f p w op : Bytes} {q₂ : Nat} {fromPort : Option Bytes} (h : AtStart m)
    (hf : InLang Grammar.identifier f) (hp : PortAfter fromPort p) (hw : Blanks w)
    (hop : (op = bytes ['=', '>'] ∧ q₂ = 36) ∨ (op = bytes ['|', '|'] ∧ q₂ = 43)) :
    ∃ var, m.parse (f ++ (p ++ (w ++ op))) =
      { m with
        token := []
        var := var
        fromNode := f
        fromPort := fromPort.getD []
        currentState := q₂ } := by
  have hsplit : ∀ c d : UInt8, f ++ (p ++ (w ++ [c, d])) = (f ++ (p ++ (w ++ [c]))) ++ [d] := by
    simp
  obtain ⟨h6, h78, h42⟩ := delta_greater
  rcases hop with ⟨rfl, rfl⟩ | ⟨rfl, rfl⟩
  · have hc : Cls.of (ch '=') = .equal := by decide
    have hd : Cls.of (ch '>') = .greater := by decide
    obtain ⟨q, var, hq, -, heq⟩ := parse_from h hf hp hw hc (Or.inl rfl)
    refine ⟨var, ?_⟩
    rw [bytes, List.map_cons, List.map_cons, List.map_nil, hsplit, parse_append, heq, parse_cons,
      parse_nil]
    rcases hq rfl with rfl | rfl
    · exact readChar_silent (by decide) hd h6 rfl
    · exact readChar_silent (by decide) hd h78 rfl
  · have hc : Cls.of (ch '|') = .bar := by decide
    obtain ⟨q, var, -, hq, heq⟩ := parse_from h hf hp hw hc (Or.inr rfl)
    refine ⟨var, ?_⟩
    rw [bytes, List.map_cons, List.map_cons, List.map_nil, hsplit, parse_append, heq, parse_cons,
      parse_nil]
    obtain rfl := hq rfl
    exact readChar_silent (by decide) hc h42 rfl

/-- The states of the second half of a line of a link: its start, the ends of the
first name, the state after `~`, the ends of the second name. -/
def targetContexts : List (Nat × List Nat × Nat × List Nat × List Act) :=
  [(36, [37, 41], 38, [39, 40], [.setVar, .createLink]),
    (43, [44, 48], 45, [46, 47], [.setVar, .removeLink])]

theorem targetContexts_spec : ∀ x ∈ targetContexts,
    SkipsBlanks x.1 ∧ x.1 ≠ 0 ∧ x.1 < 84 ∧ x.2.2.1 ≠ 0 ∧ x.2.2.1 < 84 ∧
    (x.1, Grammar.identifier, x.2.1) ∈ letterContexts ∧
    (x.2.2.1, Grammar.identifier, x.2.2.2.1) ∈ letterContexts ∧
    (∀ q ∈ x.2.1, q ≠ 0 ∧ q < 84 ∧ delta q .tilde = (x.2.2.1, [.setVar, .setToPort]) ∧
      (q, x.2.2.2.2) ∈ tailContexts) ∧
    ∀ q ∈ x.2.2.2.1, (q, x.2.2.2.2) ∈ tailContexts := by
  decide +kernel

/-- The second half of a line of a link. -/
theorem parse_target {q d w : Bytes} {toPort : Option Bytes} {ends ends' : List Nat}
    {mid : Nat} {acts : List Act} (hctx : (m.currentState, ends, mid, ends', acts) ∈ targetContexts)
    (htoken : m.token = []) (htoPort : m.toPort = []) (hw : Blanks w)
    (hq : PortBefore toPort q) (hd : InLang Grammar.identifier d) (ht : Tail t) :
    ∃ var state, m.parse (w ++ (q ++ (d ++ (t ++ [ch '\n'])))) =
      { (actAll 0 acts { m with
          token := d
          var := var
          toPort := toPort.getD []
          currentState := state }).clear.note .lineEnd with currentState := 82 } := by
  obtain ⟨hskip, h0, hlt, hmid0, hmidlt, hfirst, hsecond, hends, hends'⟩ :=
    targetContexts_spec _ hctx
  have hm : Running m := ⟨h0, hlt⟩
  rw [parse_append, parse_blanks hskip hm hw]
  cases hq with
  | none =>
    obtain ⟨q', hq', heq⟩ := parse_letters hfirst hm hd
    refine ⟨m.var, q', ?_⟩
    rw [List.nil_append, parse_append, heq, parse_tail (hends q' hq').2.2.2 ht]
    simp [htoken, htoPort]
  | @some p hp =>
    obtain ⟨q', hq', heq⟩ := parse_letters hfirst hm hp
    obtain ⟨hq0, hqlt, htilde, -⟩ := hends q' hq'
    have hread := readChar_plain (m := { m with token := m.token ++ p, currentState := q' })
      (c := ch '~') ⟨hq0, hqlt⟩ htilde (by decide)
    obtain ⟨q'', hq'', heq'⟩ := parse_letters (m := actAll (ch '~') [.setVar, .setToPort]
      { m with token := m.token ++ p, currentState := mid }) hsecond ⟨hmid0, hmidlt⟩ hd
    refine ⟨p, q'', ?_⟩
    rw [List.append_assoc, parse_append, heq, List.singleton_append, parse_cons, hread,
      parse_append, heq', parse_tail (hends' q'' hq'') ht]
    simp [htoken, actAll, act]

/-! ## The four commands -/

theorem executed_link {f d p q w₁ w₂ : Bytes} {fromPort toPort : Option Bytes}
    (h : AtStart m) (hf : InLang Grammar.identifier f) (hp : PortAfter fromPort p)
    (hw₁ : Blanks w₁) (hw₂ : Blanks w₂) (hq : PortBefore toPort q)
    (hd : InLang Grammar.identifier d) (ht : Tail t) :
    Executed m (.link f fromPort toPort d) (m.parse
      (f ++ (p ++ (w₁ ++ ch '=' :: ch '>' :: (w₂ ++ (q ++ (d ++ (t ++ [ch '\n'])))))))) := by
  obtain ⟨var, hsource⟩ := parse_source h hf hp hw₁ (Or.inl ⟨rfl, rfl⟩)
  have hsplit : f ++ (p ++ (w₁ ++ ch '=' :: ch '>' :: (w₂ ++ (q ++ (d ++ (t ++ [ch '\n'])))))) =
      (f ++ (p ++ (w₁ ++ bytes ['=', '>']))) ++ (w₂ ++ (q ++ (d ++ (t ++ [ch '\n'])))) := by
    simp [bytes]
  have hctx : (36, [37, 41], 38, [39, 40], [Act.setVar, Act.createLink]) ∈ targetContexts := by
    decide
  rw [hsplit, parse_append, hsource]
  obtain ⟨var', state, htarget⟩ := parse_target (m := { m with
    token := [], var := var, fromNode := f, fromPort := fromPort.getD [], currentState := 36 })
    hctx rfl h.toPort hw₂ hq hd ht
  rw [htarget]
  refine ⟨⟨Or.inr rfl, rfl, rfl, rfl, rfl, rfl, rfl, h.currentDirectory⟩, ?_⟩
  simp [actAll, act, createLink, namesToUrls, linkArguments, note, clear, Command.toCall,
    Call.request, h.currentDirectory]

theorem executed_unlink {f d p q w₁ w₂ : Bytes} {fromPort toPort : Option Bytes}
    (h : AtStart m) (hf : InLang Grammar.identifier f) (hp : PortAfter fromPort p)
    (hw₁ : Blanks w₁) (hw₂ : Blanks w₂) (hq : PortBefore toPort q)
    (hd : InLang Grammar.identifier d) (ht : Tail t) :
    Executed m (.unlink f fromPort toPort d) (m.parse
      (f ++ (p ++ (w₁ ++ ch '|' :: ch '|' :: (w₂ ++ (q ++ (d ++ (t ++ [ch '\n'])))))))) := by
  obtain ⟨var, hsource⟩ := parse_source h hf hp hw₁ (Or.inr ⟨rfl, rfl⟩)
  have hsplit : f ++ (p ++ (w₁ ++ ch '|' :: ch '|' :: (w₂ ++ (q ++ (d ++ (t ++ [ch '\n'])))))) =
      (f ++ (p ++ (w₁ ++ bytes ['|', '|']))) ++ (w₂ ++ (q ++ (d ++ (t ++ [ch '\n'])))) := by
    simp [bytes]
  have hctx : (43, [44, 48], 45, [46, 47], [Act.setVar, Act.removeLink]) ∈ targetContexts := by
    decide
  rw [hsplit, parse_append, hsource]
  obtain ⟨var', state, htarget⟩ := parse_target (m := { m with
    token := [], var := var, fromNode := f, fromPort := fromPort.getD [], currentState := 43 })
    hctx rfl h.toPort hw₂ hq hd ht
  rw [htarget]
  refine ⟨⟨Or.inr rfl, rfl, rfl, rfl, rfl, rfl, rfl, h.currentDirectory⟩, ?_⟩
  simp [actAll, act, removeLink, namesToUrls, linkArguments, note, clear, Command.toCall,
    Call.request, h.currentDirectory]

theorem delta_create : delta 6 .space = (7, []) ∧ delta 6 .tab = (7, []) ∧ SkipsBlanks 7 ∧
    delta 8 .leftParen = (9, [.setClass]) :=
  ⟨delta_of_single (by decide), delta_of_single (by decide), commandRows_spec.2 7 (by decide),
    delta_of_single (by decide)⟩

/-- Blanks between `=` and the class. -/
theorem parse_beforeClass (hq : m.currentState = 6) (hw : Blanks w) :
    ∃ q ∈ [6, 7], m.parse w = { m with currentState := q } := by
  obtain ⟨hspace, htab, hskip, -⟩ := delta_create
  cases w with
  | nil => exact ⟨6, by decide, by rw [← hq]; rfl⟩
  | cons b w =>
    refine ⟨7, by decide, ?_⟩
    have hread : m.readChar b = { m with currentState := 7 } := by
      rcases hw b List.mem_cons_self with hb | hb
      · exact readChar_silent (by decide) hb hspace hq
      · exact readChar_silent (by decide) hb htab hq
    have h7 : Running { m with currentState := 7 } :=
      running_of_mem (l := [7]) (by decide) rfl (List.mem_singleton_self 7)
    rw [parse_cons, hread]
    exact parse_blanks hskip h7 fun d hd => hw d (List.mem_cons_of_mem b hd)

theorem executed_create {v C ps w₁ w₂ : Bytes} (h : AtStart m)
    (hv : InLang Grammar.identifier v) (hw₁ : Blanks w₁) (hw₂ : Blanks w₂)
    (hC : InLang Grammar.class_ C) (hps : Params ps) (ht : Tail t) :
    Executed m (.create v C ps) (m.parse
      (v ++ (w₁ ++ ch '=' :: (w₂ ++ (C ++ ch '(' :: (ps ++ ch ')' :: (t ++ [ch '\n']))))))) := by
  have hequal : Cls.of (ch '=') = .equal := by decide
  have hparen : Cls.of (ch '(') = .leftParen := by decide
  have hsplit : v ++ (w₁ ++ ch '=' :: (w₂ ++ (C ++ ch '(' :: (ps ++ ch ')' ::
      (t ++ [ch '\n']))))) =
      (v ++ (w₁ ++ [ch '='])) ++ (w₂ ++ (C ++ ch '(' :: ((ps ++ [ch ')']) ++
        (t ++ [ch '\n'])))) := by simp
  rw [hsplit, parse_append, parse_var h hv hw₁ hequal (Or.inl ⟨rfl, rfl⟩), parse_append]
  obtain ⟨q, hq, hbefore⟩ := parse_beforeClass (m := { m with
    token := [], var := v, fromNode := v, currentState := 6 }) rfl hw₂
  have hctx : (q, Grammar.class_, [8]) ∈ letterContexts := by
    rcases List.mem_pair.mp hq with rfl | rfl <;> decide
  have hrunning : Running { m with
      token := [], var := v, fromNode := v, currentState := q } :=
    running_of_mem (l := [6, 7]) (by decide) rfl hq
  obtain ⟨q', hq', hclass⟩ := parse_letters hctx hrunning hC
  obtain rfl : q' = 8 := by simpa using hq'
  have hopen := readChar_of (c := ch '(') (m := { m with
    token := [] ++ C, var := v, fromNode := v, currentState := 8 }) (by decide) hparen
    delta_create.2.2.2 (by decide) rfl
  have h9 : (9, 18) ∈ paramContexts := by decide
  obtain ⟨token, value, hparams⟩ := parse_params (m := { m with
    token := [], class_ := C, var := v, fromNode := v, currentState := 9 }) h9
    (running_of_mem (l := [9]) (by decide) rfl (List.mem_singleton_self 9)) hps
  have h18 : (18, [Act.createInstance]) ∈ tailContexts := by decide
  have htail := parse_tail (m := { m with
    token := token, value := value, class_ := C, var := v, fromNode := v
    parameterString := m.parameterString ++ ps, currentState := 18 }) h18 ht
  rw [hbefore, parse_append, hclass, parse_cons, hopen, parse_append]
  simp only [actAll, List.foldl_cons, List.foldl_nil, act, List.nil_append]
  rw [hparams, htail]
  refine ⟨⟨Or.inr rfl, rfl, rfl, rfl, rfl, rfl, rfl, h.currentDirectory⟩, ?_⟩
  simp [actAll, act, createInstance, namesToUrls, note, clear, Command.toCall, Call.request,
    h.currentDirectory, h.parameterString]

/-- `execute_command` makes the request of its call. -/
theorem executeCommand_spec (m : TextCommand) :
    m.executeCommand.log = m.log ++ [.called (.executeCommand m.method m.parameterString)
      ((Call.executeCommand m.method m.parameterString).request m.currentDirectory)] ∧
    m.executeCommand.currentDirectory = m.currentDirectory := by
  simp only [executeCommand, Call.request]
  split
  · exact ⟨rfl, rfl⟩
  · split <;> exact ⟨rfl, rfl⟩

/-- After `execute_command` the line is over. -/
theorem executed_executeCommand {m m' : TextCommand} {method ps : Bytes}
    (h : m'.currentDirectory = [ch '/']) (hmethod : m'.method = method)
    (hps : m'.parameterString = ps) (hlog : m'.log = m.log) :
    Executed m (.call method ps)
      { m'.executeCommand.clear.note .lineEnd with currentState := 82 } := by
  obtain ⟨hafter, hdirectory⟩ := executeCommand_spec m'
  refine ⟨⟨Or.inr rfl, rfl, rfl, rfl, rfl, rfl, rfl, hdirectory.trans h⟩, ?_⟩
  have hlast : (m'.executeCommand.clear.note .lineEnd).log =
      m'.executeCommand.log ++ [.lineEnd] := rfl
  change (m'.executeCommand.clear.note .lineEnd).log = _
  rw [hlast, hafter, hlog, hmethod, hps, h, List.append_assoc]
  rfl

/-- The state does not matter to `execute_command` and `prompt`. -/
theorem actAll_execute (c : UInt8) (m : TextCommand) (q : Nat) :
    actAll c [.executeCommand, .prompt] { m with currentState := q } =
      { m.executeCommand.clear.note .lineEnd with currentState := q } :=
  actAll_quiet (by decide) c 0 m q

theorem executed_bare {method : Bytes} (h : AtStart m)
    (hmethod : InLang Grammar.identifier method) :
    Executed m (.call method []) (m.parse (method ++ [ch '\n'])) := by
  have hnl : Cls.of (ch '\n') = .newline := by decide
  obtain ⟨q, hq, heq⟩ := parse_firstName h hmethod
  obtain ⟨-, -, -, -, -, -, hnewline⟩ := delta_firstName q hq
  have hlive : q ≠ 0 ∧ q < 84 := by
    rcases List.mem_pair.mp hq with rfl | rfl <;> decide
  have hread := readChar_of (m := { m with token := method, currentState := q }) hlive hnl
    hnewline (by decide) rfl
  have hacts : actAll (ch '\n') [.setMethod, .executeCommand, .prompt]
      { m with token := method, currentState := 82 } =
      actAll (ch '\n') [.executeCommand, .prompt]
        { m with token := [], method := method, currentState := 82 } := rfl
  rw [parse_append, heq, parse_cons, parse_nil, hread, hacts]
  have hend := actAll_execute (ch '\n') { m with token := [], method := method } 82
  rw [hend]
  exact executed_executeCommand h.currentDirectory rfl h.parameterString rfl

theorem delta_call : delta 58 .newline = (82, [.executeCommand, .prompt]) :=
  delta_of_single (by decide)

theorem executed_call {method ps : Bytes} (h : AtStart m)
    (hmethod : InLang Grammar.identifier method) (hps : Params ps) :
    Executed m (.call method ps)
      (m.parse (method ++ ch '(' :: (ps ++ [ch ')', ch '\n']))) := by
  have hnl : Cls.of (ch '\n') = .newline := by decide
  have hparen : Cls.of (ch '(') = .leftParen := by decide
  have hsplit : ps ++ [ch ')', ch '\n'] = (ps ++ [ch ')']) ++ [ch '\n'] := by simp
  obtain ⟨q, hq, heq⟩ := parse_firstName h hmethod
  obtain ⟨-, -, -, -, -, hopen, -⟩ := delta_firstName q hq
  have hlive : q ≠ 0 ∧ q < 84 := by
    rcases List.mem_pair.mp hq with rfl | rfl <;> decide
  have hread := readChar_of (m := { m with token := method, currentState := q }) hlive hparen
    hopen (by decide) rfl
  have h49 : (49, 58) ∈ paramContexts := by decide
  obtain ⟨token, value, hparams⟩ := parse_params (m := { m with
    token := [], method := method, currentState := 49 }) h49
    (running_of_mem (l := [49]) (by decide) rfl (List.mem_singleton_self 49)) hps
  have hlast := readChar_of (m := { m with
    token := token, method := method, value := value
    parameterString := m.parameterString ++ ps, currentState := 58 }) (by decide) hnl
    delta_call (by decide) rfl
  rw [parse_append, heq, parse_cons, hread, hsplit, parse_append]
  simp only [actAll, List.foldl_cons, List.foldl_nil, act]
  rw [hparams, parse_cons, parse_nil, hlast, actAll_execute]
  refine executed_executeCommand h.currentDirectory rfl ?_ rfl
  simp [h.parameterString]

/-- The line of a command executes it, and the parser is ready for the next line. -/
theorem executed_of_prints {command : Command} {line : Bytes} (h : AtStart m)
    (hline : Prints command line) : Executed m command (m.parse line) := by
  cases hline with
  | create hv hw₁ hw₂ hC hps ht => exact executed_create h hv hw₁ hw₂ hC hps ht
  | link hf hp hw₁ hw₂ hq hd ht => exact executed_link h hf hp hw₁ hw₂ hq hd ht
  | unlink hf hp hw₁ hw₂ hq hd ht => exact executed_unlink h hf hp hw₁ hw₂ hq hd ht
  | bare hmethod => exact executed_bare h hmethod
  | call hmethod hps => exact executed_call h hmethod hps

/-! ## Whole texts -/

/-- What the log says of commands that are executed one after the other. -/
def executedEntries (commands : List Command) : List Entry :=
  commands.flatMap fun command =>
    [.called command.toCall (command.toCall.request [ch '/']), .lineEnd]

@[simp] theorem calls_append (l₁ l₂ : List Entry) :
    calls (l₁ ++ l₂) = calls l₁ ++ calls l₂ := List.filterMap_append

@[simp] theorem calls_executedEntries (commands : List Command) :
    calls (executedEntries commands) = commands.map Command.toCall := by
  induction commands with
  | nil => rfl
  | cons command commands ih =>
    have hcons : executedEntries (command :: commands) =
        [.called command.toCall (command.toCall.request [ch '/']), .lineEnd] ++
          executedEntries commands := rfl
    rw [hcons, calls_append, ih]
    rfl

theorem executed_all {commands : List Command} {lines : List Bytes}
    (hlines : List.Forall₂ Prints commands lines) (h : AtStart m) :
    AtStart (m.parse lines.flatten) ∧
      (m.parse lines.flatten).log = m.log ++ executedEntries commands := by
  induction hlines generalizing m with
  | nil => exact ⟨h, by simp [executedEntries]⟩
  | @cons command line commands lines hline _ ih =>
    obtain ⟨hstart, hlog⟩ := executed_of_prints h hline
    obtain ⟨hend, hrest⟩ := ih hstart
    rw [List.flatten_cons, parse_append]
    refine ⟨hend, ?_⟩
    rw [hrest, hlog]
    simp [executedEntries]

/-- Commands printed one on a line and given to a new parser in blocks that are cut
anywhere: no syntax error is reported, and the functions are called once for each
command, in order, with what was printed. -/
theorem commands_executed {commands : List Command} {lines blocks : List Bytes}
    (hlines : List.Forall₂ Prints commands lines) (hcut : blocks.flatten = lines.flatten) :
    calls (blocks.foldl parse init).log = commands.map Command.toCall ∧
      .syntaxError ∉ (blocks.foldl parse init).log := by
  have hlog := (executed_all hlines atStart_init).2
  rw [parse_flatten, hcut, hlog]
  have hnil : init.log = [] := rfl
  rw [hnil, List.nil_append, calls_executedEntries]
  refine ⟨rfl, ?_⟩
  simp [executedEntries]

/-- A class with a parameter, a link into a port with a comment, and a call. -/
theorem commands_executed_three :
    calls ([bytes ['v', '=', 'M', '(', 'a', ':'], bytes ['1', ')', '\n', 'a', ' '],
        bytes ['=', '>', 'p', '~', 'b', ' ', '#', '!', '\n', 'q'], bytes ['\n']].foldl parse
        init).log =
      [.createInstance (bytes ['v']) (bytes ['M']) (bytes ['a', ':', '1']),
        .createLink (bytes ['a']) [] (bytes ['p']) (bytes ['b']),
        .executeCommand (bytes ['q']) []] ∧
    .syntaxError ∉ ([bytes ['v', '=', 'M', '(', 'a', ':'], bytes ['1', ')', '\n', 'a', ' '],
        bytes ['=', '>', 'p', '~', 'b', ' ', '#', '!', '\n', 'q'], bytes ['\n']].foldl parse
        init).log := by
  have hcreate := @Prints.create (bytes ['v']) (bytes ['M']) (bytes ['a', ':', '1']) [] [] []
    (by decide +kernel) (by decide +kernel) (by decide +kernel) (by decide +kernel)
    (by decide +kernel) .nothing
  have htail := @Tail.comment (bytes [' ']) (bytes ['!']) (by decide +kernel)
    (by decide +kernel)
  have hlink := @Prints.link (bytes ['a']) (bytes ['b']) _ _ (bytes [' ']) [] _ _ _
    (by decide +kernel) .none (by decide +kernel) (by decide +kernel)
    (@PortBefore.some (bytes ['p']) (by decide +kernel)) (by decide +kernel) htail
  have hcall := @Prints.bare (bytes ['q']) (by decide +kernel)
  exact commands_executed (.cons hcreate (.cons hlink (.cons hcall .nil))) (by decide +kernel)

end Rubyk.TextCommand
