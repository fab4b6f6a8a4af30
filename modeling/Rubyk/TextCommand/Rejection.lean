/-
  TextCommand/Rejection.lean --- lines that are refused.

  The actions of a command fire when the machine leaves its last name or its closing
  parenthesis, before the rest of the line was read.  This file finds out when the
  rest of the line can still be refused: a command has run on the current line in the
  states 3 (comment), 19 (blanks after a command) and 81 (`eat_line`) only, and of
  these only 19 refuses a byte.  The texts that lead from the start of a line to 19 are
  a regular language (`Grammar.blanksAfter`).
-/
import Rubyk.TextCommand.Lines

set_option autoImplicit false

namespace Rubyk.TextCommand

open RegularExpression Lib

variable {m : TextCommand} {c : UInt8} {u w : Bytes} {p : Nat × Nat} {log entries : List Entry}

/-! ## Lines of the log -/

/-- A refused line ran nothing, and no line ran two commands. -/
def Clean (log : List Entry) : Prop :=
  ∀ l, l <+: log → (calls (openLine l)).length ≤ 1 ∧
    (.syntaxError ∈ openLine l → calls (openLine l) = [])

theorem openLine_append (log : List Entry) (e : Entry) :
    openLine (log ++ [e]) = if e = .lineEnd then [] else openLine log ++ [e] := by
  by_cases h : e = .lineEnd <;> simp [openLine, h]

/-- The account counts the open line. -/
theorem account_eq (log : List Entry) :
    account log = ((calls (openLine log)).length, decide (.syntaxError ∈ openLine log)) := by
  induction log using List.reverseRecOn with
  | nil => rfl
  | append_singleton log e ih =>
    rw [account_append, ih, openLine_append]
    cases e with
    | called call request => simp [accountShapes, Entry.shape, calls]
    | syntaxError => simp [accountShapes, Entry.shape, calls]
    | lineEnd => simp [accountShapes, Entry.shape, calls]

/-- The account of a line that is as it should be. -/
def Proper (a : Nat × Bool) : Prop := a.1 ≤ 1 ∧ (a.2 = true → a.1 = 0)

theorem clean_iff (log : List Entry) : Clean log ↔ ∀ l, l <+: log → Proper (account l) := by
  refine forall_congr' fun l => imp_congr_right fun _ => ?_
  rw [account_eq]
  simp [Proper]

theorem Clean.proper (h : Clean log) : Proper (account log) :=
  (clean_iff log).mp h log (List.prefix_refl log)

theorem Clean.of_append (h : Clean (log ++ entries)) : Clean log :=
  fun l hl => h l (hl.trans (List.prefix_append log entries))

theorem clean_append_singleton (e : Entry) :
    Clean (log ++ [e]) ↔ Clean log ∧ Proper (account (log ++ [e])) := by
  constructor
  · exact fun h => ⟨h.of_append, h.proper⟩
  · rintro ⟨h, hlast⟩
    rw [clean_iff]
    intro l hl
    rcases List.prefix_concat_iff.mp hl with rfl | hl
    · exact hlast
    · exact (clean_iff log).mp h l hl

/-- A line end is harmless. -/
theorem clean_lineEnd : Clean (log ++ [.lineEnd]) ↔ Clean log := by
  rw [clean_append_singleton, and_iff_left]
  rw [account_append]
  exact ⟨Nat.zero_le 1, fun h => absurd h (by simp [accountShapes, Entry.shape])⟩

/-- So are commands on a line that was not refused, as long as there is one. -/
theorem clean_called {n k : Nat} (haccount : account log = (n, false)) (hone : n + k ≤ 1)
    (hentries : entries.map Entry.shape = List.replicate k .called) :
    Clean (log ++ entries) ↔ Clean log := by
  refine ⟨Clean.of_append, fun h => ?_⟩
  induction entries using List.reverseRecOn generalizing k with
  | nil => rwa [List.append_nil]
  | append_singleton entries e ih =>
    cases k with
    | zero => simp at hentries
    | succ k =>
      have hmap : entries.map Entry.shape ++ [e.shape] =
          List.replicate k .called ++ [.called] := by
        rw [← List.replicate_succ', ← hentries, List.map_append]
        rfl
      obtain ⟨hbefore, he⟩ := List.append_singleton_inj.mp hmap
      rw [← List.append_assoc, clean_append_singleton]
      refine ⟨ih (by omega) hbefore, ?_⟩
      rw [List.append_assoc, account_append, hentries, accountShapes_called, haccount]
      exact ⟨hone, fun h => absurd h (by simp)⟩

/-- A refusal is harmless where nothing ran. -/
theorem clean_syntaxError {n : Nat} (haccount : account log = (n, false)) :
    Clean (log ++ [.syntaxError]) ↔ Clean log ∧ n = 0 := by
  rw [clean_append_singleton, account_append, haccount]
  simp only [List.map_cons, List.map_nil, accountShapes, Entry.shape, List.foldl_cons,
    List.foldl_nil, Proper]
  grind

/-! ## Blanks after a command -/

/-- A complete command that can be followed by a comment, and blanks. -/
def Grammar.blanksAfter : RegularExpression Cls :=
  (Grammar.createInstance + Grammar.createLink + Grammar.removeLink) * many Grammar.ws

/-- The table of the blanks after a command. -/
def blanksAfterTable :
    Table lineStep (fun p => p.1.beq 19) Cls.all (1, 0) Grammar.blanksAfter :=
  have h : (lineTable (fun p => p.1.beq 19) Grammar.blanksAfter).isSome = true := by
    decide +kernel
  .ofExplore h

theorem inLang_blanksAfter : InLang Grammar.blanksAfter w ↔ ∃ n, lineRun w = some (19, n) := by
  rw [InLang, ← blanksAfterTable.accepts_iff_matches Cls.mem_all]
  constructor
  · rintro ⟨⟨cs, n⟩, hrun, hfinal⟩
    obtain rfl : cs = 19 := Nat.eq_of_beq_eq_true hfinal
    exact ⟨n, hrun⟩
  · rintro ⟨n, hrun⟩
    exact ⟨(19, n), hrun, rfl⟩

/-- What can follow blanks after a command. -/
theorem lineStep_19 (hp : p.1 = 19) (k : Cls) :
    lineStep p k = none ↔ ¬ (k = .space ∨ k = .tab ∨ k = .hash) := by
  have h : ∀ k ∈ Cls.all, Plain (delta 19 k).2 ↔ k = .space ∨ k = .tab ∨ k = .hash := by
    decide +kernel
  rw [lineStep, hp, if_neg (by decide), ← h k (Cls.mem_all k)]
  split <;> simp_all

/-- The parser is in state 19 exactly in the blanks after a command. -/
theorem currentState_eq_19 : (init.parse u).currentState = 19 ↔
    ∃ pre w, u = pre ++ w ∧ Lines pre ∧ InLang Grammar.blanksAfter w := by
  constructor
  · intro h
    have hposition := position u
    generalize init.parse u = m at h hposition
    cases hposition with
    | @within pre w p hpre hw hp hat _ =>
      have h19 : p.1 = 19 := by
        rcases hat with hat | ⟨-, hat⟩
        · rw [← hat, h]
        · exact absurd (h.symm.trans hat) (by decide)
      exact ⟨pre, w, rfl, hpre, inLang_blanksAfter.mpr ⟨p.2, by rw [hw, ← h19]⟩⟩
    | eating _ _ _ _ _ hstate _ => exact absurd (h.symm.trans hstate) (by decide)
  · rintro ⟨pre, w, rfl, hpre, hw⟩
    obtain ⟨n, hrun⟩ := inLang_blanksAfter.mp hw
    obtain ⟨hat, -⟩ := parse_lineRun (at_of_lines hpre) hrun
    rw [parse_append]
    rcases hat with h | ⟨h, -⟩
    · exact h
    · exact absurd (show 19 = 1 from h) (by decide)

/-! ## Texts -/

/-- After a complete command and a blank, a line only goes on with blanks or a comment. -/
def NoLateRefusal (u : Bytes) : Prop :=
  ∀ pre w c post, u = pre ++ (w ++ c :: post) → Lines pre → InLang Grammar.blanksAfter w →
    Cls.of c = .space ∨ Cls.of c = .tab ∨ Cls.of c = .hash

theorem noLateRefusal_concat : NoLateRefusal (u ++ [c]) ↔ NoLateRefusal u ∧
    ((init.parse u).currentState = 19 →
      Cls.of c = .space ∨ Cls.of c = .tab ∨ Cls.of c = .hash) := by
  rw [currentState_eq_19]
  constructor
  · intro h
    refine ⟨fun pre w d post hu => h pre w d (post ++ [c]) (by simp [hu]), ?_⟩
    rintro ⟨pre, w, rfl, hpre, hw⟩
    exact h pre w c [] (by simp) hpre hw
  · rintro ⟨hu, hlast⟩ pre w d post heq hpre hw
    rcases List.eq_nil_or_concat post with rfl | ⟨post, e, rfl⟩
    · have heq' : u ++ [c] = (pre ++ w) ++ [d] := by simp [heq]
      obtain ⟨hu', rfl⟩ := List.append_singleton_inj.mp heq'
      exact hlast ⟨pre, w, hu', hpre, hw⟩
    · have heq' : u ++ [c] = (pre ++ (w ++ d :: post)) ++ [e] := by simp [heq]
      obtain ⟨hu', -⟩ := List.append_singleton_inj.mp heq'
      exact hu pre w d post hu' hpre hw

theorem clean_step : Clean (init.parse (u ++ [c])).log ↔ Clean (init.parse u).log ∧
    ((init.parse u).currentState = 19 →
      Cls.of c = .space ∨ Cls.of c = .tab ∨ Cls.of c = .hash) := by
  have hposition := position u
  rw [parse_append, parse_cons, parse_nil]
  generalize init.parse u = m at hposition
  cases hposition with
  | @within pre w p hpre hw hp hat haccount =>
    obtain ⟨rs, ⟨hlive, -, hone, h19, hrefuses⟩, -⟩ := exists_facts_of_lineRun hw
    have hread := readChar_line hat hlive hp c
    have hstate : m.currentState = 19 ↔ p.1 = 19 := by
      rcases hat with h | ⟨h1, h82⟩
      · rw [h]
      · exact iff_of_false (by rw [h82]; decide) (by rw [h1]; decide)
    cases hstep : lineStep p (Cls.of c) with
    | none =>
      rw [hstep] at hread
      obtain ⟨-, herror, hread⟩ := hread
      have hlog : Clean (m.readChar c).log ↔ Clean (m.log ++ [.syntaxError]) := by
        rw [hread]
        split
        · exact clean_lineEnd
        · rfl
      rw [hlog, clean_syntaxError haccount, hstate]
      refine and_congr_right fun _ => ?_
      by_cases hp19 : p.1 = 19
      · have hbad := (lineStep_19 hp19 _).mp hstep
        have hran := h19 hp19
        exact iff_of_false (by simp [show p.2 = 1 from hran]) fun h => hbad (h hp19)
      · refine iff_of_true ?_ fun h => absurd h hp19
        rcases hrefuses with h | h | h | h
        · exact absurd h hp19
        · exact absurd h hp
        · exact h
        · exact absurd herror (h _ (Cls.mem_all _))
    | some q =>
      rw [hstep] at hread
      obtain ⟨-, -, hle, entries, hlog, hentries⟩ := hread
      have hgood : m.currentState = 19 →
          Cls.of c = .space ∨ Cls.of c = .tab ∨ Cls.of c = .hash := by
        intro h
        by_contra hbad
        have hnone := (lineStep_19 (hstate.mp h) _).mpr hbad
        rw [hstep] at hnone
        exact absurd hnone (by simp)
      rw [and_iff_left hgood, hlog]
      have hrun : lineRun (w ++ [c]) = some q := by rw [lineRun_concat, hw]; exact hstep
      obtain ⟨rs', ⟨-, -, hone', -⟩, -⟩ := exists_facts_of_lineRun hrun
      have hcount : p.2 + (q.2 - p.2) ≤ 1 := by
        have h : q.2 ≤ 1 := hone'
        omega
      by_cases hq : q.1 = 82
      · rw [if_pos hq] at hentries
        obtain ⟨before, last, rfl, hbefore, hlast⟩ := List.map_eq_append_iff.mp hentries
        obtain ⟨e, rfl, he⟩ := List.map_eq_singleton_iff.mp hlast
        obtain rfl : e = .lineEnd := by
          cases e with
          | lineEnd => rfl
          | called => simp [Entry.shape] at he
          | syntaxError => simp [Entry.shape] at he
        rw [← List.append_assoc, clean_lineEnd, clean_called haccount hcount hbefore]
      · rw [if_neg hq, List.append_nil] at hentries
        exact clean_called haccount hcount hentries
  | eating hpre hviable hline hrefused htext hstate haccount =>
    have hother : m.currentState = 19 →
        Cls.of c = .space ∨ Cls.of c = .tab ∨ Cls.of c = .hash :=
      fun h => absurd (hstate.symm.trans h) (by decide)
    rw [and_iff_left hother, readChar_eatLine hstate]
    split
    · exact clean_lineEnd
    · rfl

theorem clean_iff_noLateRefusal (u : Bytes) :
    Clean (init.parse u).log ↔ NoLateRefusal u := by
  induction u using List.reverseRecOn with
  | nil =>
    refine iff_of_true ?_ fun pre w c post h => absurd h (by simp)
    rw [clean_iff]
    intro l hl
    obtain rfl := List.prefix_nil.mp hl
    exact ⟨Nat.zero_le 1, fun _ => rfl⟩
  | append_singleton u c ih => rw [clean_step, noLateRefusal_concat, ih]

/-! ## Lines that are accepted -/

/-- The table of the lines with a command. -/
def commandLineTable :
    Table lineStep (fun p => p.1.beq 82 && p.2.beq 1) Cls.all (1, 0) Grammar.commandLine :=
  have h : (lineTable (fun p => p.1.beq 82 && p.2.beq 1) Grammar.commandLine).isSome = true := by
    decide +kernel
  .ofExplore h

/-- Every line with a command runs it once. -/
def RunsOnce (u : Bytes) : Prop :=
  ∀ pre w post, u = pre ++ (w ++ post) → Lines pre → InLang Grammar.commandLine w →
    ∃ call request, (init.parse (pre ++ w)).log =
      (init.parse pre).log ++ [.called call request, .lineEnd]

/-- The entries of one command. -/
theorem exists_called {entries : List Entry} (h : entries.map Entry.shape = [.called, .ended]) :
    ∃ call request, entries = [.called call request, .lineEnd] := by
  obtain ⟨e, rest, rfl, he, hrest⟩ := List.map_eq_cons_iff.mp h
  obtain ⟨e', rest', rfl, he', hnil⟩ := List.map_eq_cons_iff.mp hrest
  obtain rfl := List.map_eq_nil_iff.mp hnil
  cases e with
  | called call request =>
    cases e' with
    | lineEnd => exact ⟨call, request, rfl⟩
    | _ => cases he'
  | _ => cases he

theorem runsOnce (u : Bytes) : RunsOnce u := by
  intro pre w post _ hpre hw
  rw [InLang, ← commandLineTable.accepts_iff_matches Cls.mem_all] at hw
  obtain ⟨⟨cs, n⟩, hrun, hfinal⟩ := hw
  obtain ⟨hcs, hn⟩ := Bool.and_eq_true _ _ ▸ hfinal
  obtain rfl : cs = 82 := Nat.eq_of_beq_eq_true hcs
  obtain rfl : n = 1 := Nat.eq_of_beq_eq_true hn
  obtain ⟨-, entries, hlog, hshapes⟩ := parse_lineRun (at_of_lines hpre) hrun
  obtain ⟨call, request, rfl⟩ := exists_called hshapes
  exact ⟨call, request, by rw [parse_append, hlog]⟩

/-- What a text should do: every line with a command is accepted and runs it once, or it
is refused and has run nothing. -/
def AllOrNothing (blocks : List Bytes) : Prop :=
  Clean (blocks.foldl parse init).log ∧ RunsOnce blocks.flatten

/-- Refused lines have no effect if and only if no line goes on after a complete command
and a blank with something else than blanks or a comment. -/
theorem allOrNothing_iff (blocks : List Bytes) :
    AllOrNothing blocks ↔ NoLateRefusal blocks.flatten := by
  rw [AllOrNothing, and_iff_left (runsOnce _), parse_flatten, clean_iff_noLateRefusal]

/-- The instance is created, and then the line is refused. -/
theorem refused_after_running :
    ¬ AllOrNothing [bytes ['v', '=', 'M', '(', ')', ' ', 'x', '\n']] := by
  rintro ⟨h, -⟩
  have hlog : (init.parse (bytes ['v', '=', 'M', '(', ')', ' ', 'x', '\n'])).log =
      [.called (.createInstance (bytes ['v']) (bytes ['M']) [])
          ⟨.newOf (bytes ['M']), [.string (bytes ['/', 'v']), .jsonOrHash []]⟩,
        .syntaxError, .lineEnd] := by
    decide +kernel
  rw [List.foldl_cons, List.foldl_nil, hlog] at h
  have hline := (h (_ :: [.syntaxError]) ⟨[.lineEnd], rfl⟩).2 (by simp [openLine])
  simp [openLine, calls] at hline

end Rubyk.TextCommand
