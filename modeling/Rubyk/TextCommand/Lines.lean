/-
  TextCommand/Lines.lean --- how the parser cuts a text into lines.

  The grammar says what a line is: a word of `Grammar.line`, or a beginning of such a
  word, then a byte that cannot follow it, and everything up to the next newline.
  `Lines` are the texts that are made of lines.  The machine agrees (`position`): after
  any text it is in a state that the expression of a line leads to, or in `eat_line`.

  The log is cut in the same way.  What matters of it are the SHAPES of its entries,
  and the account of the open line: how many commands it ran and whether it was
  refused.
-/
import Rubyk.Lib.Logs
import Rubyk.TextCommand.Pieces

set_option autoImplicit false

namespace Rubyk.TextCommand

open RegularExpression Lib

variable {m : TextCommand} {c : UInt8} {u w : Bytes} {k : Cls} {p q : Nat × Nat}

/-! ## Lines -/

/-- A line can start with this. -/
def Viable (w : Bytes) : Prop := ∃ v, InLang Grammar.line (w ++ v)

/-- The texts that are made of whole lines. -/
inductive Lines : Bytes → Prop
  | none : Lines []
  | accepted {pre w : Bytes} : Lines pre → InLang Grammar.line w → Lines (pre ++ w)
  | refused {pre w rest text : Bytes} {c : UInt8} : Lines pre → Viable w →
      ¬ InLang Grammar.line w → ¬ Viable (w ++ [c]) → c :: rest = text ++ [ch '\n'] →
      (∀ d ∈ text, d ≠ ch '\n') → Lines (pre ++ (w ++ c :: rest))

/-! ## The account of a line -/

/-- What is left of an entry for the account of a line. -/
inductive Shape where
  | called
  | refused
  | ended
  deriving DecidableEq, Repr

def Entry.shape : Entry → Shape
  | .called _ _ => .called
  | .syntaxError => .refused
  | .lineEnd => .ended

/-- The account of the open line: how many commands it ran, and whether it was
refused. -/
def accountShapes (a : Nat × Bool) (shapes : List Shape) : Nat × Bool :=
  shapes.foldl (fun a s =>
    match s with
    | .called => (a.1 + 1, a.2)
    | .refused => (a.1, true)
    | .ended => (0, false)) a

/-- The account after a log. -/
def account (log : List Entry) : Nat × Bool := accountShapes (0, false) (log.map Entry.shape)

theorem account_append (l₁ l₂ : List Entry) :
    account (l₁ ++ l₂) = accountShapes (account l₁) (l₂.map Entry.shape) := by
  simp [account, accountShapes, List.foldl_append]

theorem accountShapes_called (a : Nat × Bool) (n : Nat) :
    accountShapes a (List.replicate n .called) = (a.1 + n, a.2) := by
  induction n generalizing a with
  | zero => rfl
  | succ n ih =>
    have hstep : accountShapes a (List.replicate (n + 1) .called) =
        accountShapes (a.1 + 1, a.2) (List.replicate n .called) := rfl
    rw [hstep, ih]
    simp only [Prod.mk.injEq, and_true]
    omega

/-- The shape of the entry an action makes. -/
def Act.shape : Act → Option Shape
  | .createLink => some .called
  | .removeLink => some .called
  | .createInstance => some .called
  | .executeCommand => some .called
  | .prompt => some .ended
  | .error => some .refused
  | .gotoMain => some .ended
  | _ => none

theorem act_log (m : TextCommand) (c : UInt8) (action : Act) :
    ∃ entries, (m.act c action).log = m.log ++ entries ∧
      entries.map Entry.shape = action.shape.toList := by
  cases action with
  | executeCommand =>
    simp only [act, executeCommand]
    split
    · exact ⟨_, rfl, rfl⟩
    · split <;> exact ⟨_, rfl, rfl⟩
  | a => exact ⟨[], by simp [act], rfl⟩
  | params => exact ⟨[], by simp [act], rfl⟩
  | setVar => exact ⟨[], by simp [act], rfl⟩
  | setMethod => exact ⟨[], by simp [act], rfl⟩
  | setClass => exact ⟨[], by simp [act], rfl⟩
  | setValue => exact ⟨[], by simp [act], rfl⟩
  | setFrom => exact ⟨[], by simp [act], rfl⟩
  | setFromPort => exact ⟨[], by simp [act], rfl⟩
  | setToPort => exact ⟨[], by simp [act], rfl⟩
  | createLink => exact ⟨_, rfl, rfl⟩
  | removeLink => exact ⟨_, rfl, rfl⟩
  | createInstance => exact ⟨_, rfl, rfl⟩
  | prompt => exact ⟨_, rfl, rfl⟩
  | error => exact ⟨_, rfl, rfl⟩
  | gotoMain => exact ⟨_, rfl, rfl⟩

theorem actAll_log (c : UInt8) (acts : List Act) (m : TextCommand) :
    ∃ entries, (actAll c acts m).log = m.log ++ entries ∧
      entries.map Entry.shape = acts.filterMap Act.shape := by
  induction acts generalizing m with
  | nil => exact ⟨[], by simp [actAll], rfl⟩
  | cons action actions ih =>
    obtain ⟨first, hfirst, hshape⟩ := act_log m c action
    obtain ⟨rest, hrest, hshapes⟩ := ih (m.act c action)
    refine ⟨first ++ rest, ?_, ?_⟩
    · rw [← List.append_assoc, ← hfirst]
      exact hrest
    · rw [List.map_append, hshape, hshapes]
      cases hs : action.shape <;> simp [hs]

/-! ## The machine on a line -/

/-- The action runs one of the four functions. -/
def Act.executes (action : Act) : Bool := action.shape == some .called

/-- The machine on a line: its state, and how many commands the line ran.  The end of the
line and a byte that is refused end the run. -/
def lineStep (p : Nat × Nat) (k : Cls) : Option (Nat × Nat) :=
  if p.1 = 82 then none
  else if Plain (delta p.1 k).2 then
    some ((delta p.1 k).1, p.2 + (delta p.1 k).2.countP Act.executes)
  else none

/-- Where a text leads from the start of a line. -/
def lineRun (w : Bytes) : Option (Nat × Nat) := (w.map Cls.of).foldlM lineStep (1, 0)

theorem lineRun_append (v w : Bytes) :
    lineRun (v ++ w) = (lineRun v).bind fun p => (w.map Cls.of).foldlM lineStep p := by
  rw [lineRun, List.map_append, List.foldlM_append]
  rfl

theorem lineRun_concat (w : Bytes) (c : UInt8) :
    lineRun (w ++ [c]) = (lineRun w).bind fun p => lineStep p (Cls.of c) := by
  rw [lineRun_append]
  simp

/-- What every state that transitions leave within a line has in common. -/
def lineSpec (cs : Nat) (k : Cls) : Prop :=
  delta cs k = (0, [.error]) ∧ cs ≠ 3 ∨
    (Plain (delta cs k).2 ∧ (delta cs k).1 ∉ [0, 1, 81, 83] ∧
      (delta cs k).2.filterMap Act.shape =
        List.replicate ((delta cs k).2.countP Act.executes) .called ++
          (if (delta cs k).1 = 82 then [.ended] else []))

instance (cs : Nat) (k : Cls) : Decidable (lineSpec cs k) :=
  inferInstanceAs (Decidable (_ ∨ _))

theorem lineSpec_all : ∀ cs ∈ states, cs ∉ [0, 81, 83] → ∀ k ∈ Cls.all, lineSpec cs k := by
  decide +kernel

/-- The pairs that a text can lead to, with what an expression still has to match. -/
def lineTable (final : Nat × Nat → Bool) (r : RegularExpression Cls) :
    Option (List ((Nat × Nat) × List (RegularExpression Cls))) :=
  explore Prod.fst lineStep final Cls.all 4000 [((1, 0), [r])] []

/-- What holds wherever a line can lead: it is in a state of the machine, the line can be
completed, and at most one command has run.  In the blanks after a command, one has; where
else a byte can be refused, none has. -/
def lineFacts (x : (Nat × Nat) × List (RegularExpression Cls)) : Prop :=
  (x.1.1 ∈ states ∧ x.1.1 ∉ [0, 81, 83]) ∧ (x.2.any matchesSome = true) ∧ x.1.2 ≤ 1 ∧
    (x.1.1 = 19 → x.1.2 = 1) ∧
    (x.1.1 = 19 ∨ x.1.1 = 82 ∨ x.1.2 = 0 ∨ ∀ k ∈ Cls.all, (delta x.1.1 k).2 ≠ [.error])

instance (x : (Nat × Nat) × List (RegularExpression Cls)) : Decidable (lineFacts x) :=
  inferInstanceAs (Decidable (_ ∧ _))

/-- The table of all lines, with what holds in its rows. -/
structure LineTable extends
    Table lineStep (fun p => p.1.beq 82) Cls.all (1, 0) Grammar.line where
  facts : ∀ x ∈ rows, lineFacts x

/-- The table of all lines. -/
def wholeLine : LineTable :=
  have h : (lineTable (fun p => p.1.beq 82) Grammar.line).any
      (fun rows => rows.all fun x => decide (lineFacts x)) = true := by
    decide +kernel
  { toTable := .ofExplore (Option.isSome_of_any h)
    facts := fun x hx =>
      of_decide_eq_true (List.all_eq_true.mp (Option.get_of_any_eq_true _ _ h) x hx) }

theorem exists_facts_of_lineRun (h : lineRun w = some p) :
    ∃ rs, lineFacts (p, rs) ∧
      ∀ v, Matches rs v ↔ w.map Cls.of ++ v ∈ Grammar.line.matches' := by
  obtain ⟨rs, hrs, hfollow⟩ := wholeLine.exists_mem_of_run Cls.mem_all h
  exact ⟨rs, wholeLine.facts _ hrs, hfollow⟩

/-- The lines of the grammar are the texts that lead to the end of a line. -/
theorem inLang_line : InLang Grammar.line w ↔ ∃ n, lineRun w = some (82, n) := by
  rw [InLang, ← wholeLine.accepts_iff_matches Cls.mem_all]
  constructor
  · rintro ⟨⟨cs, n⟩, hrun, hfinal⟩
    obtain rfl : cs = 82 := Nat.eq_of_beq_eq_true hfinal
    exact ⟨n, hrun⟩
  · rintro ⟨n, hrun⟩
    exact ⟨(82, n), hrun, rfl⟩

theorem exists_bytes (v : List Cls) : ∃ w : Bytes, w.map Cls.of = v := by
  refine ⟨v.map Cls.rep, ?_⟩
  rw [List.map_map]
  exact (List.map_congr_left fun k _ => Cls.of_rep k).trans (List.map_id v)

/-- A line can start with the texts that lead somewhere. -/
theorem viable_iff : Viable w ↔ ∃ p, lineRun w = some p := by
  constructor
  · rintro ⟨v, hv⟩
    obtain ⟨n, hrun⟩ := inLang_line.mp hv
    rw [lineRun_append] at hrun
    obtain ⟨p, hp, -⟩ := Option.bind_eq_some_iff.mp hrun
    exact ⟨p, hp⟩
  · rintro ⟨p, hp⟩
    obtain ⟨rs, ⟨-, hsome, -⟩, hfollow⟩ := exists_facts_of_lineRun hp
    obtain ⟨r, hr, hr'⟩ := List.any_eq_true.mp hsome
    obtain ⟨v, hv⟩ := exists_mem_of_matchesSome hr'
    obtain ⟨v, rfl⟩ := exists_bytes v
    have hline := (hfollow (v.map Cls.of)).mp ⟨r, hr, hv⟩
    exact ⟨v, by rwa [InLang, List.map_append]⟩

/-! ## One byte -/

/-- The parser is where the text since the start of the line leads.  Between two lines it
is in state 82 instead of 1, which has the same transitions. -/
def At (m : TextCommand) (cs : Nat) : Prop :=
  m.currentState = cs ∨ (cs = 1 ∧ m.currentState = 82)

theorem delta_82 (k : Cls) : delta 82 k = delta 1 k := by
  have h : ∀ k ∈ Cls.all, delta 82 k = delta 1 k := by decide +kernel
  exact h k (Cls.mem_all k)

theorem At.delta {cs : Nat} (h : At m cs) (k : Cls) :
    delta m.currentState k = TextCommand.delta cs k := by
  rcases h with h | ⟨rfl, h⟩
  · rw [h]
  · rw [h, delta_82]

theorem At.running {cs : Nat} (h : At m cs) (hlive : cs ∈ states ∧ cs ∉ [0, 81, 83]) :
    Running m := by
  have hlt : cs < 84 := List.mem_range.mp hlive.1
  have hne : cs ≠ 0 := fun h0 => hlive.2 (by simp [h0])
  rcases h with h | ⟨-, h⟩
  · exact ⟨h ▸ hne, h ▸ hlt⟩
  · rw [Running, h]
    decide

theorem delta_eatLine (k : Cls) :
    delta 81 k = if k = .newline then (83, [.gotoMain]) else (81, []) := by
  have h : ∀ k ∈ Cls.all, delta 81 k = if k = .newline then (83, [.gotoMain]) else (81, []) := by
    decide +kernel
  exact h k (Cls.mem_all k)

theorem exec_eatLine (hm : m.currentState = 81) (c : UInt8) :
    m.exec c =
      (false, if c = ch '\n' then { m.note .lineEnd with currentState := 1 } else m) := by
  have hrunning : Running m := by
    rw [Running, hm]
    decide
  rw [exec_eq hrunning, hm, delta_eatLine]
  by_cases hc : c = ch '\n'
  · rw [if_pos (Cls.of_eq_newline.mpr hc), if_pos hc]
    rfl
  · rw [if_neg fun h => hc (Cls.of_eq_newline.mp h), if_neg hc, ← hm]
    rfl

/-- `eat_line`. -/
theorem readChar_eatLine (hm : m.currentState = 81) (c : UInt8) :
    m.readChar c =
      if c = ch '\n' then { m.note .lineEnd with currentState := 1 } else m := by
  have hne : m.currentState ≠ 0 := by rw [hm]; decide
  rw [readChar, if_neg hne, exec_eatLine hm]

/-- The parser reports an error, and `eat_line` reads the byte again. -/
theorem readChar_error (hm : Running m) (hd : delta m.currentState (Cls.of c) = (0, [.error])) :
    m.readChar c =
      if c = ch '\n' then { (m.clear.note .syntaxError).note .lineEnd with currentState := 1 }
      else { m.clear.note .syntaxError with currentState := 81 } := by
  have hexec : m.exec c = (true, { m.clear.note .syntaxError with currentState := 81 }) := by
    rw [exec_eq hm, hd]
    rfl
  rw [readChar, if_neg hm.1, hexec]
  simp only
  rw [exec_eatLine rfl]
  rfl

/-- What a byte does within a line. -/
theorem readChar_line (hq : At m p.1) (hlive : p.1 ∈ states ∧ p.1 ∉ [0, 81, 83])
    (hp : p.1 ≠ 82) (c : UInt8) :
    match lineStep p (Cls.of c) with
    | none =>
        p.1 ≠ 3 ∧ (delta p.1 (Cls.of c)).2 = [.error] ∧
          m.readChar c =
            if c = ch '\n' then
              { (m.clear.note .syntaxError).note .lineEnd with currentState := 1 }
            else { m.clear.note .syntaxError with currentState := 81 }
    | some q =>
        q.1 ∉ [0, 1, 81, 83] ∧ (m.readChar c).currentState = q.1 ∧
          p.2 ≤ q.2 ∧ ∃ entries, (m.readChar c).log = m.log ++ entries ∧
            entries.map Entry.shape = List.replicate (q.2 - p.2) .called ++
              (if q.1 = 82 then [.ended] else []) := by
  have hspec := lineSpec_all p.1 hlive.1 hlive.2 (Cls.of c) (Cls.mem_all _)
  have hrunning := hq.running hlive
  rw [lineStep, if_neg hp]
  rcases hspec with ⟨herror, h3⟩ | ⟨hplain, htarget, hshapes⟩
  · have hnot : ¬ Plain (delta p.1 (Cls.of c)).2 := by rw [herror]; decide
    rw [if_neg hnot]
    refine ⟨h3, by rw [herror], readChar_error hrunning ?_⟩
    rw [hq.delta, herror]
  · rw [if_pos hplain]
    have hread := readChar_plain hrunning (hq.delta (Cls.of c)) hplain
    obtain ⟨entries, hlog, hentries⟩ := actAll_log c (delta p.1 (Cls.of c)).2
      { m with currentState := (delta p.1 (Cls.of c)).1 }
    refine ⟨htarget, ?_, Nat.le_add_right _ _, entries, ?_, ?_⟩
    · rw [hread, actAll_currentState hplain]
    · rw [hread, hlog]
    · rw [hentries, hshapes, Nat.add_sub_cancel_left]

/-! ## Where the parser is -/

/-- What the parser has read of the current line. -/
inductive Position (m : TextCommand) : Bytes → Prop
  /-- a line can start with what it has read -/
  | within {pre w : Bytes} {p : Nat × Nat} : Lines pre → lineRun w = some p → p.1 ≠ 82 →
      At m p.1 → account m.log = (p.2, false) → Position m (pre ++ w)
  /-- it has refused a byte of the line -/
  | eating {pre w rest : Bytes} {c : UInt8} : Lines pre → Viable w →
      ¬ InLang Grammar.line w → ¬ Viable (w ++ [c]) → (∀ d ∈ c :: rest, d ≠ ch '\n') →
      m.currentState = 81 → (account m.log).2 = true → Position m (pre ++ (w ++ c :: rest))

/-- Between two lines. -/
theorem position_of_lines {cs : Nat} (hu : Lines u) (hstate : m.currentState = cs)
    (hcs : cs = 1 ∨ cs = 82) (haccount : account m.log = (0, false)) : Position m u := by
  have hat : At m 1 := by
    rcases hcs with rfl | rfl
    · exact Or.inl hstate
    · exact Or.inr ⟨rfl, hstate⟩
  have h := @Position.within m u [] (1, 0) hu rfl (by decide) hat haccount
  rwa [List.append_nil] at h

theorem viable_concat (hw : lineRun w = some p) :
    Viable (w ++ [c]) ↔ ∃ q, lineStep p (Cls.of c) = some q := by
  rw [viable_iff, lineRun_concat, hw]
  rfl

theorem not_inLang_line (hw : lineRun w = some p) (hp : p.1 ≠ 82) :
    ¬ InLang Grammar.line w := by
  rw [inLang_line, hw]
  rintro ⟨n, hn⟩
  exact hp (congrArg Prod.fst (Option.some.inj hn))

/-- A byte that is refused ends the run of the line. -/
theorem exists_lineRun_refused (hviable : Viable w) (hline : ¬ InLang Grammar.line w)
    (hrefused : ¬ Viable (w ++ [c])) :
    ∃ p, lineRun w = some p ∧ p.1 ≠ 82 ∧ lineStep p (Cls.of c) = none := by
  obtain ⟨p, hrun⟩ := viable_iff.mp hviable
  refine ⟨p, hrun, fun h => hline (inLang_line.mpr ⟨p.2, by rw [hrun, ← h]⟩), ?_⟩
  exact Option.eq_none_iff_forall_ne_some.mpr fun q hq =>
    hrefused ((viable_concat hrun).mpr ⟨q, hq⟩)

theorem account_ended {a : Nat × Bool} {shapes : List Shape} :
    accountShapes a (shapes ++ [.ended]) = (0, false) := by
  simp [accountShapes]

/-- The parser follows the lines. -/
theorem position_step (h : Position m u) (c : UInt8) : Position (m.readChar c) (u ++ [c]) := by
  cases h with
  | @within pre w p hpre hw hp hat haccount =>
    obtain ⟨rs, ⟨hlive, -⟩, -⟩ := exists_facts_of_lineRun hw
    have hread := readChar_line hat hlive hp c
    rw [List.append_assoc]
    cases hstep : lineStep p (Cls.of c) with
    | none =>
      rw [hstep] at hread
      obtain ⟨-, -, hread⟩ := hread
      have hviable := viable_iff.mpr ⟨p, hw⟩
      have hrefused : ¬ Viable (w ++ [c]) := by simp [viable_concat hw, hstep]
      by_cases hc : c = ch '\n'
      · -- the newline that is refused ends the line
        rw [if_pos hc] at hread
        have hline := @Lines.refused pre w [] [] c hpre hviable (not_inLang_line hw hp) hrefused
          (by rw [hc]; rfl) (by simp)
        refine position_of_lines hline (by rw [hread]) (Or.inl rfl) ?_
        rw [hread]
        simp [note, account, accountShapes, Entry.shape]
      · rw [if_neg hc] at hread
        refine .eating hpre hviable (not_inLang_line hw hp) hrefused (by simpa using hc)
          (by rw [hread]) ?_
        rw [hread]
        simp [note, account, accountShapes, Entry.shape]
    | some q =>
      rw [hstep] at hread
      obtain ⟨-, hstate, hle, entries, hlog, hentries⟩ := hread
      have hrun : lineRun (w ++ [c]) = some q := by rw [lineRun_concat, hw]; exact hstep
      by_cases hq : q.1 = 82
      · have hline : InLang Grammar.line (w ++ [c]) :=
          inLang_line.mpr ⟨q.2, by rw [hrun, ← hq]⟩
        refine position_of_lines (hpre.accepted hline) hstate (Or.inr hq) ?_
        rw [hlog, account_append, hentries, if_pos hq, account_ended]
      · refine .within hpre hrun hq (Or.inl hstate) ?_
        rw [hlog, account_append, hentries, if_neg hq, List.append_nil, haccount,
          accountShapes_called, Nat.add_sub_cancel' hle]
  | @eating pre w rest d hpre hviable hline hrefused htext hstate haccount =>
    rw [List.append_assoc, List.append_assoc, List.cons_append]
    have hread := readChar_eatLine hstate c
    by_cases hc : c = ch '\n'
    · rw [if_pos hc] at hread
      have hlines := @Lines.refused pre w (rest ++ [c]) (d :: rest) d hpre hviable hline
        hrefused (by rw [hc]; rfl) htext
      refine position_of_lines hlines (by rw [hread]) (Or.inl rfl) ?_
      rw [hread]
      simp [note, account, accountShapes, Entry.shape]
    · rw [if_neg hc] at hread
      rw [hread]
      refine .eating hpre hviable hline hrefused ?_ hstate haccount
      intro e he
      rcases List.mem_append.mp (List.cons_append ▸ he) with he | he
      · exact htext e he
      · rwa [List.mem_singleton.mp he]

/-- After any text, the parser is where the lines of the text say. -/
theorem position (u : Bytes) : Position (init.parse u) u := by
  induction u using List.reverseRecOn with
  | nil => exact position_of_lines .none rfl (Or.inl rfl) rfl
  | append_singleton u c ih =>
    rw [parse_append]
    exact position_step ih c

/-! ## Between two lines -/

/-- Where a text leads from the start of a line, and what it logs. -/
theorem parse_lineRun (hm : At m 1) (hw : lineRun w = some p) :
    At (m.parse w) p.1 ∧ ∃ entries, (m.parse w).log = m.log ++ entries ∧
      entries.map Entry.shape =
        List.replicate p.2 .called ++ (if p.1 = 82 then [.ended] else []) := by
  induction w using List.reverseRecOn generalizing p with
  | nil =>
    obtain rfl : (1, 0) = p := Option.some.inj hw
    exact ⟨hm, [], by simp, rfl⟩
  | append_singleton w c ih =>
    rw [lineRun_concat] at hw
    obtain ⟨mid, hmid, hstep⟩ := Option.bind_eq_some_iff.mp hw
    obtain ⟨hat, before, hbefore, hshapes⟩ := ih hmid
    obtain ⟨rs, ⟨hlive, -⟩, -⟩ := exists_facts_of_lineRun hmid
    have hne : mid.1 ≠ 82 := fun h => by simp [lineStep, h] at hstep
    have hread := readChar_line hat hlive hne c
    rw [hstep] at hread
    obtain ⟨-, hstate, hle, entries, hlog, hentries⟩ := hread
    rw [parse_append, parse_cons, parse_nil]
    refine ⟨Or.inl hstate, before ++ entries, ?_, ?_⟩
    · rw [hlog, hbefore, List.append_assoc]
    · rw [List.map_append, hshapes, hentries, if_neg hne, List.append_nil, ← List.append_assoc,
        List.replicate_append_replicate, Nat.add_sub_cancel' hle]

theorem parse_eatLine (hm : m.currentState = 81) (hw : ∀ c ∈ w, c ≠ ch '\n') :
    m.parse w = m := by
  induction w with
  | nil => rfl
  | cons c w ih =>
    rw [parse_cons, readChar_eatLine hm, if_neg (hw c List.mem_cons_self)]
    exact ih fun d hd => hw d (List.mem_cons_of_mem c hd)

/-- A line is never at its start again. -/
theorem eq_nil_of_lineRun (hw : lineRun w = some p) (hp : p.1 = 1) : w = [] := by
  induction w using List.reverseRecOn with
  | nil => rfl
  | append_singleton w c _ =>
    rw [lineRun_concat] at hw
    obtain ⟨mid, hmid, hstep⟩ := Option.bind_eq_some_iff.mp hw
    obtain ⟨rs, ⟨hlive, -⟩, -⟩ := exists_facts_of_lineRun hmid
    have hne : mid.1 ≠ 82 := fun h => by simp [lineStep, h] at hstep
    have hread := readChar_line (m := { init with currentState := mid.1 }) (Or.inl rfl) hlive
      hne c
    rw [hstep] at hread
    simp [hp] at hread

/-- Whole lines leave the parser between two lines. -/
theorem at_of_lines (hu : Lines u) : At (init.parse u) 1 := by
  induction hu with
  | none => exact Or.inl rfl
  | accepted _ hw ih =>
    obtain ⟨n, hrun⟩ := inLang_line.mp hw
    obtain ⟨hat, -⟩ := parse_lineRun ih hrun
    rw [parse_append]
    rcases hat with h | ⟨h, -⟩
    · exact Or.inr ⟨rfl, h⟩
    · exact absurd (show 82 = 1 from h) (by decide)
  | @refused pre w rest text c hpre hviable hline hrefused heq htext ih =>
    obtain ⟨p, hrun, hne, hstep⟩ := exists_lineRun_refused hviable hline hrefused
    obtain ⟨hat, -⟩ := parse_lineRun ih hrun
    obtain ⟨rs, ⟨hlive, -⟩, -⟩ := exists_facts_of_lineRun hrun
    have hread := readChar_line hat hlive hne c
    rw [hstep] at hread
    rw [parse_append, parse_append, parse_cons, hread.2.2]
    cases text with
    | nil =>
      obtain ⟨rfl, rfl⟩ : c = ch '\n' ∧ rest = [] := by simpa using heq
      exact Or.inl rfl
    | cons d text =>
      obtain ⟨rfl, rfl⟩ : c = d ∧ rest = text ++ [ch '\n'] := by simpa using heq
      rw [if_neg (htext c List.mem_cons_self), parse_append,
        parse_eatLine rfl fun e he => htext e (List.mem_cons_of_mem c he), parse_cons, parse_nil,
        readChar_eatLine rfl, if_pos rfl]
      exact Or.inl rfl

/-- The parser is between two lines exactly after whole lines. -/
theorem at_iff_lines : At (init.parse u) 1 ↔ Lines u := by
  refine ⟨fun h => ?_, at_of_lines⟩
  have hposition := position u
  generalize hm : init.parse u = m at h hposition
  cases hposition with
  | @within pre w p hpre hw hp hat _ =>
    have hone : p.1 = 1 := by
      rcases hat with hat | ⟨hat, -⟩
      · rcases h with h | ⟨-, h⟩
        · rw [← hat, h]
        · exact absurd (hat.symm.trans h) hp
      · exact hat
    rw [eq_nil_of_lineRun hw hone, List.append_nil]
    exact hpre
  | eating _ _ _ _ _ hstate _ =>
    rcases h with h | ⟨-, h⟩
    · exact absurd (hstate.symm.trans h) (by decide)
    · exact absurd (hstate.symm.trans h) (by decide)

end Rubyk.TextCommand
