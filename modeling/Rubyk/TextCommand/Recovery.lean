/-
  TextCommand/Recovery.lean --- what a text leaves behind.

  `clear` empties six of the strings and leaves the others.  Whatever was read before,
  the six are empty between two lines and in `eat_line` (`Tidy`), and the line of a
  command writes all others that its function reads before that function runs
  (`executed_of_prints`).  So nothing of an earlier line reaches a later one, as long as
  a newline ends the line, which it does everywhere but in a quoted string.
-/
import Rubyk.TextCommand.Correct
import Rubyk.TextCommand.Lines

set_option autoImplicit false

namespace Rubyk.TextCommand

open RegularExpression Lib

variable {m : TextCommand} {c : UInt8} {u w : Bytes} {p : Nat × Nat}

/-! ## Strings that are not closed -/

namespace Grammar

/-- The beginning of `string` up to a byte that is not its closing quote. -/
def openQuote (quote : Cls) : RegularExpression Cls :=
  char quote * ((but [quote, .backslash] + char Cls.newline + char Cls.backslash * but []).star *
    opt (char Cls.backslash))

/-- The beginning of a line up to a string that is not closed. -/
def openString : RegularExpression Cls :=
  identifier *
    ((ws.star * (char Cls.equal * (ws.star * (class_ * char Cls.leftParen))) +
        char Cls.leftParen) *
      (((value * (ws.star * (char Cls.comma * ws.star))).star +
          (param * ws.star).star * (identifier * (char Cls.colon * ws.star))) *
        (openQuote .doubleQuote + openQuote .singleQuote)))

end Grammar

/-- The text ends inside a quoted string. -/
def InsideString (u : Bytes) : Prop :=
  ∃ pre w, u = pre ++ w ∧ Lines pre ∧ InLang Grammar.openString w

/-- The states of the machine inside a string. -/
def stringStates : List Nat :=
  [10, 14, 15, 22, 25, 29, 30, 31, 50, 54, 55, 61, 64, 68, 69, 70]

/-- The table of the beginnings of strings. -/
def openStringTable :
    Table lineStep (fun p => stringStates.contains p.1) Cls.all (1, 0) Grammar.openString :=
  have h : (lineTable (fun p => stringStates.contains p.1) Grammar.openString).isSome = true := by
    decide +kernel
  .ofExplore h

theorem inLang_openString :
    InLang Grammar.openString w ↔ ∃ p, lineRun w = some p ∧ p.1 ∈ stringStates := by
  rw [InLang, ← openStringTable.accepts_iff_matches Cls.mem_all]
  simp [lineRun]

theorem insideString_iff : InsideString u ↔ (init.parse u).currentState ∈ stringStates := by
  constructor
  · rintro ⟨pre, w, rfl, hpre, hw⟩
    obtain ⟨p, hrun, hp⟩ := inLang_openString.mp hw
    obtain ⟨hat, -⟩ := parse_lineRun (at_of_lines hpre) hrun
    rw [parse_append]
    rcases hat with h | ⟨h, -⟩
    · rwa [h]
    · exact absurd hp (by rw [h]; decide)
  · intro h
    have hposition := position u
    generalize init.parse u = m at h hposition
    cases hposition with
    | @within pre w p hpre hw hp hat _ =>
      rcases hat with hat | ⟨-, hat⟩
      · exact ⟨pre, w, rfl, hpre, inLang_openString.mpr ⟨p, hw, hat ▸ h⟩⟩
      · exact absurd h (by rw [hat]; decide)
    | eating _ _ _ _ _ hstate _ => exact absurd h (by rw [hstate]; decide)

/-! ## What is empty between two lines -/

/-- The strings that `clear` empties are empty. -/
def Cleared (m : TextCommand) : Prop :=
  m.token = [] ∧ m.var = [] ∧ m.class_ = [] ∧ m.parameterString = [] ∧ m.fromPort = [] ∧
    m.toPort = []

theorem cleared_clear (m : TextCommand) : Cleared m.clear := ⟨rfl, rfl, rfl, rfl, rfl, rfl⟩

/-- The states in which nothing of a line has been read, or nothing more is. -/
def idleStates : List Nat := [1, 81, 82]

/-- What holds after any text. -/
structure Tidy (m : TextCommand) : Prop where
  state : m.currentState ∈ states ∧ m.currentState ∉ [0, 83]
  currentDirectory : m.currentDirectory = [ch '/']
  cleared : m.currentState ∈ idleStates → Cleared m

theorem tidy_init : Tidy init :=
  ⟨by decide, rfl, fun _ => ⟨rfl, rfl, rfl, rfl, rfl, rfl⟩⟩

theorem Tidy.running (h : Tidy m) : Running m :=
  ⟨fun h0 => h.state.2 (by simp [h0]), List.mem_range.mp h.state.1⟩

/-- The state after a byte of the class. -/
def nextState (cs : Nat) (k : Cls) : Nat :=
  match (delta cs k).2 with
  | [.error] => if k = .newline then 1 else 81
  | [.gotoMain] => 1
  | _ => (delta cs k).1

/-- What the transitions have in common: an error, or the end of `eat_line`, or a step in
which the strings are emptied where it matters. -/
def tidySpec (cs : Nat) (k : Cls) : Prop :=
  (delta cs k = (0, [.error]) ∧ nextState cs k = if k = .newline then 1 else 81) ∨
    (cs = 81 ∧ nextState cs k = if k = .newline then 1 else 81) ∨
      (Plain (delta cs k).2 ∧ nextState cs k = (delta cs k).1 ∧
        (delta cs k).1 ∈ states ∧ (delta cs k).1 ∉ [0, 83] ∧
          ((delta cs k).1 ∈ idleStates → (delta cs k).2.getLast? = some .prompt))

instance (cs : Nat) (k : Cls) : Decidable (tidySpec cs k) := inferInstanceAs (Decidable (_ ∨ _))

theorem tidySpec_all : ∀ cs ∈ states, cs ∉ [0, 83] → ∀ k ∈ Cls.all, tidySpec cs k := by
  decide +kernel

theorem act_currentDirectory (m : TextCommand) (c : UInt8) (action : Act) :
    (m.act c action).currentDirectory = m.currentDirectory := by
  cases action with
  | executeCommand =>
    simp only [act, executeCommand]
    split
    · rfl
    · split <;> rfl
  | _ => rfl

theorem actAll_currentDirectory (m : TextCommand) (c : UInt8) (acts : List Act) :
    (actAll c acts m).currentDirectory = m.currentDirectory := by
  induction acts generalizing m with
  | nil => rfl
  | cons action actions ih =>
    have hhead := ih (m.act c action)
    rw [act_currentDirectory] at hhead
    exact hhead

theorem cleared_actAll {acts : List Act} (h : acts.getLast? = some .prompt)
    (m : TextCommand) (c : UInt8) : Cleared (actAll c acts m) := by
  obtain ⟨before, rfl⟩ := List.getLast?_eq_some_iff.mp h
  rw [actAll, List.foldl_append]
  exact cleared_clear (List.foldl (fun m action => m.act c action) m before)

/-- A byte leaves the parser tidy. -/
theorem tidy_readChar (h : Tidy m) (c : UInt8) :
    Tidy (m.readChar c) ∧
      (m.readChar c).currentState = nextState m.currentState (Cls.of c) := by
  have hnewline : (Cls.of c = .newline) ↔ c = ch '\n' := Cls.of_eq_newline
  have h1 : 1 ∈ states ∧ 1 ∉ [0, 83] := by decide
  have heat : 81 ∈ states ∧ 81 ∉ [0, 83] := by decide
  rcases tidySpec_all _ h.state.1 h.state.2 (Cls.of c) (Cls.mem_all _) with
    ⟨herror, hnext⟩ | ⟨h81, hnext⟩ | ⟨hplain, hnext, hstates, hlive, hprompt⟩
  · rw [readChar_error h.running herror, hnext]
    by_cases hc : c = ch '\n'
    · rw [if_pos hc, if_pos (hnewline.mpr hc)]
      exact ⟨⟨h1, h.currentDirectory, fun _ => cleared_clear m⟩, rfl⟩
    · rw [if_neg hc, if_neg fun h => hc (hnewline.mp h)]
      exact ⟨⟨heat, h.currentDirectory, fun _ => cleared_clear m⟩, rfl⟩
  · have hcleared := h.cleared (by rw [h81]; decide)
    rw [readChar_eatLine h81, hnext]
    by_cases hc : c = ch '\n'
    · rw [if_pos hc, if_pos (hnewline.mpr hc)]
      exact ⟨⟨h1, h.currentDirectory, fun _ => hcleared⟩, rfl⟩
    · rw [if_neg hc, if_neg fun h => hc (hnewline.mp h)]
      exact ⟨h, h81⟩
  · rw [readChar_plain h.running rfl hplain]
    have hstate : (actAll c (delta m.currentState (Cls.of c)).2
        { m with currentState := (delta m.currentState (Cls.of c)).1 }).currentState =
          (delta m.currentState (Cls.of c)).1 := actAll_currentState hplain _
    refine ⟨⟨?_, ?_, fun hidle => ?_⟩, hstate.trans hnext.symm⟩
    · rw [hstate]
      exact ⟨hstates, hlive⟩
    · rw [actAll_currentDirectory]
      exact h.currentDirectory
    · rw [hstate] at hidle
      exact cleared_actAll (hprompt hidle) _ c

/-- Any text leaves the parser tidy, in the state that its classes lead to. -/
theorem tidy_parse (h : Tidy m) (u : Bytes) :
    Tidy (m.parse u) ∧
      (m.parse u).currentState = (u.map Cls.of).foldl nextState m.currentState := by
  induction u generalizing m with
  | nil => exact ⟨h, rfl⟩
  | cons c u ih =>
    obtain ⟨htidy, hstate⟩ := tidy_readChar h c
    obtain ⟨hrest, hrest'⟩ := ih htidy
    rw [parse_cons, List.map_cons, List.foldl_cons, ← hstate]
    exact ⟨hrest, hrest'⟩

theorem Tidy.atStart (h : Tidy m) (hstate : m.currentState = 1 ∨ m.currentState = 82) :
    AtStart m := by
  have hidle : m.currentState ∈ idleStates := by
    rcases hstate with hs | hs <;> rw [hs] <;> decide
  obtain ⟨htoken, hvar, hclass, hparams, hfrom, hto⟩ := h.cleared hidle
  exact ⟨hstate, htoken, hvar, hclass, hparams, hfrom, hto, h.currentDirectory⟩

/-! ## Recovery -/

theorem nextState_newline : ∀ cs ∈ states, cs ∉ [0, 83] → cs ∉ stringStates →
    nextState cs .newline = 1 ∨ nextState cs .newline = 82 := by
  decide +kernel

/-- A newline ends every line that is not inside a string. -/
theorem atStart_newline (hu : ¬ InsideString u) : AtStart (init.parse (u ++ [ch '\n'])) := by
  obtain ⟨htidy, -⟩ := tidy_parse tidy_init u
  obtain ⟨hnext, hstate⟩ := tidy_readChar htidy (ch '\n')
  rw [parse_append, parse_cons, parse_nil]
  have hnewline : Cls.of (ch '\n') = .newline := by decide
  refine hnext.atStart ?_
  rw [hstate, hnewline]
  exact nextState_newline _ htidy.state.1 htidy.state.2 fun h => hu (insideString_iff.mpr h)

/-- The texts that end any line, also inside a string or after its backslash. -/
def lineEndings : List (List Cls) :=
  [[.newline], [.doubleQuote, .newline], [.singleQuote, .newline],
    [.doubleQuote, .doubleQuote, .newline], [.singleQuote, .singleQuote, .newline]]

theorem exists_lineEnding : ∀ cs ∈ states, cs ∉ [0, 83] → ∃ w ∈ lineEndings,
    w.foldl nextState cs = 1 ∨ w.foldl nextState cs = 82 := by
  decide +kernel

/-- No text leaves the parser where it cannot get out. -/
theorem exists_atStart (u : Bytes) : ∃ t, AtStart (init.parse (u ++ t)) := by
  obtain ⟨htidy, -⟩ := tidy_parse tidy_init u
  obtain ⟨w, -, hw⟩ := exists_lineEnding _ htidy.state.1 htidy.state.2
  obtain ⟨t, rfl⟩ := exists_bytes w
  obtain ⟨hend, hstate⟩ := tidy_parse htidy t
  refine ⟨t, ?_⟩
  rw [parse_append]
  exact hend.atStart (by rwa [hstate])

/-- Between two lines a command is executed as a new parser executes it. -/
theorem log_of_atStart {line : Bytes} (h : AtStart m) (hline : InLang Grammar.commandLine line) :
    (m.parse line).log = m.log ++ (init.parse line).log ∧
      ∃ call request, (init.parse line).log = [.called call request, .lineEnd] := by
  obtain ⟨command, hprints⟩ := prints_iff.mpr hline
  obtain ⟨-, hlog⟩ := executed_of_prints h hprints
  obtain ⟨-, hinit⟩ := executed_of_prints atStart_init hprints
  have hnil : init.log = [] := rfl
  rw [hnil, List.nil_append] at hinit
  exact ⟨by rw [hlog, hinit], _, _, hinit⟩

/-- After any text that does not end inside a string, and a newline, every line of a command
is executed with the arguments a new parser executes it with.  After any text at all there
is a continuation with that effect. -/
theorem recovered (blocks : List Bytes) {line : Bytes}
    (hline : InLang Grammar.commandLine line) :
    (∃ call request, (init.parse line).log = [.called call request, .lineEnd]) ∧
      (¬ InsideString blocks.flatten →
        (((blocks ++ [[ch '\n']]).foldl parse init).parse line).log =
          ((blocks ++ [[ch '\n']]).foldl parse init).log ++ (init.parse line).log) ∧
      ∃ t, (((blocks ++ [t]).foldl parse init).parse line).log =
        ((blocks ++ [t]).foldl parse init).log ++ (init.parse line).log := by
  refine ⟨(log_of_atStart atStart_init hline).2, fun hs => ?_, ?_⟩
  · have hstart := atStart_newline hs
    rw [parse_flatten, List.flatten_append, List.flatten_singleton]
    exact (log_of_atStart hstart hline).1
  · obtain ⟨t, hstart⟩ := exists_atStart blocks.flatten
    refine ⟨t, ?_⟩
    rw [parse_flatten, List.flatten_append, List.flatten_singleton]
    exact (log_of_atStart hstart hline).1

/-- A line that is refused, and then a call. -/
theorem recovered_after_error :
    ((([bytes ['a', '=', ')']] ++ [[ch '\n']]).foldl parse init).parse (bytes ['q', '\n'])).log =
      (([bytes ['a', '=', ')']] ++ [[ch '\n']]).foldl parse init).log ++
        (init.parse (bytes ['q', '\n'])).log := by
  have hline : InLang Grammar.commandLine (bytes ['q', '\n']) := by decide +kernel
  have hopen : ¬ InsideString [bytes ['a', '=', ')']].flatten := by
    rw [insideString_iff]
    decide +kernel
  exact (recovered [bytes ['a', '=', ')']] hline).2.1 hopen

end Rubyk.TextCommand
