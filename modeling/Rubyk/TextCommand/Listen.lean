/-
  TextCommand/Listen.lean --- `TextCommand::listen` on a `std::istream`.

  The loop reads lines into a buffer and gives each to `parse`, with the newline that
  `std::istream::getline` dropped.  It ends when the stream says `eof()`.  A line that
  does not fit in the buffer sets `failbit`; after that nothing is read any more, and
  the end of the input is never seen.

  FROM OUTSIDE.  `InputStream` is `std::istream` as far as `getline` and `eof` go.
-/
import Rubyk.TextCommand.Lines
import Mathlib.Data.List.TakeWhile

set_option autoImplicit false

namespace Rubyk.TextCommand

variable {c : UInt8} {t rest line : Bytes} {m : TextCommand}

/-! ## The stream -/

/-- `std::istream`: what can still be read, and two of its state bits. -/
structure InputStream where
  rest : Bytes
  eofbit : Bool
  failbit : Bool
  deriving DecidableEq, Repr

namespace InputStream

/-- A stream on a text. -/
def ofText (t : Bytes) : InputStream := ⟨t, false, false⟩

/-- The line that at most `n` characters are stored of.  The end of the input is looked
for first, then the newline, then the end of the buffer. -/
def extract : Nat → Bytes → Bytes × InputStream
  | _, [] => ([], ⟨[], true, false⟩)
  | n, c :: rest =>
      if c = ch '\n' then ([], ofText rest)
      else
        match n with
        | 0 => ([], ⟨c :: rest, false, true⟩)
        | n + 1 => (c :: (extract n rest).1, (extract n rest).2)

/-- `getline(buffer, size)`: the text in the buffer, and the stream. -/
def getline (s : InputStream) (size : Nat) : Bytes × InputStream :=
  if s.eofbit || s.failbit then ([], { s with failbit := true })
  else
    let (line, s') := extract (size - 1) s.rest
    (line, { s' with failbit := s'.failbit || (line.isEmpty && s'.eofbit) })

theorem extract_newline (hline : ch '\n' ∉ line) {n : Nat} (hn : line.length ≤ n)
    (rest : Bytes) : extract n (line ++ ch '\n' :: rest) = (line, ofText rest) := by
  induction line generalizing n with
  | nil => cases n <;> simp [extract]
  | cons c line ih =>
    obtain ⟨hc, hline⟩ := not_or.mp (List.mem_cons.not.mp hline)
    cases n with
    | zero => simp at hn
    | succ n =>
      rw [List.cons_append, extract, if_neg (Ne.symm hc), ih hline (Nat.le_of_succ_le_succ hn)]

theorem extract_end (hline : ch '\n' ∉ line) {n : Nat} (hn : line.length ≤ n) :
    extract n line = (line, ⟨[], true, false⟩) := by
  induction line generalizing n with
  | nil => cases n <;> rfl
  | cons c line ih =>
    obtain ⟨hc, hline⟩ := not_or.mp (List.mem_cons.not.mp hline)
    cases n with
    | zero => simp at hn
    | succ n => rw [extract, if_neg (Ne.symm hc), ih hline (Nat.le_of_succ_le_succ hn)]

theorem extract_full (hline : ch '\n' ∉ line) (hc : c ≠ ch '\n') (rest : Bytes) :
    extract line.length (line ++ c :: rest) = (line, ⟨c :: rest, false, true⟩) := by
  induction line with
  | nil => simp [extract, hc]
  | cons d line ih =>
    obtain ⟨hd, hline⟩ := not_or.mp (List.mem_cons.not.mp hline)
    rw [List.cons_append, List.length_cons, extract, if_neg (Ne.symm hd), ih hline]

end InputStream

/-! ## The loop -/

/-- `should_run`: `quit` was not called. -/
def shouldRun (m : TextCommand) : Bool :=
  m.log.all fun
    | .called _ request => request.target ≠ .quit
    | _ => true

/-- The command and its input, in `listen`. -/
structure Listener where
  command : TextCommand
  input : InputStream
  /-- all that was given to `parse` -/
  fed : Bytes

namespace Listener

/-- `parse(block)`. -/
def feed (l : Listener) (block : Bytes) : Listener :=
  { l with command := l.command.parse block, fed := l.fed ++ block }

/-- The loop of `listen`, once: the condition, with `TextCommand::getline` and its window
of 1023, and the body. -/
def listenOnce (l : Listener) : Option Listener :=
  if l.command.shouldRun && !l.input.eofbit then
    let (line, input) := l.input.getline 1023
    some (({ l with input := input }.feed (cString line)).feed [ch '\n'])
  else none

/-- The loop of `listen`. -/
def loop : Nat → Listener → Option Listener
  | 0, _ => none
  | fuel + 1, l =>
      match l.listenOnce with
      | some l' => loop fuel l'
      | none => some l

end Listener

/-- `listen`. -/
def listen (fuel : Nat) (t : Bytes) : Option Listener :=
  Listener.loop fuel { command := init.clear, input := .ofText t, fed := [] }

/-- The loop ends and has given the text to `parse`, followed by a newline. -/
def ListensTo (t : Bytes) : Prop :=
  ∃ fuel l, listen fuel t = some l ∧ l.fed = t ++ [ch '\n']

/-! ## One line -/

theorem cString_eq {s : Bytes} (hs : ∀ c ∈ s, c ≠ 0) : cString s = s :=
  List.takeWhile_eq_self_iff.mpr fun c hc => decide_eq_true (hs c hc)

namespace Listener

variable {l l' : Listener} {fuel : Nat}

/-- A line that fits. -/
theorem listenOnce_newline (hrun : l.command.shouldRun = true)
    (hinput : l.input = .ofText (line ++ ch '\n' :: rest)) (hline : ch '\n' ∉ line)
    (hfits : line.length ≤ 1022) (hnul : ∀ c ∈ line, c ≠ 0) :
    l.listenOnce = some (({ l with input := .ofText rest }.feed line).feed [ch '\n']) := by
  simp only [listenOnce, hrun, hinput, InputStream.getline, InputStream.ofText,
    InputStream.extract_newline hline hfits]
  simp [cString_eq hnul]

/-- The last line, if it fits. -/
theorem listenOnce_end (hrun : l.command.shouldRun = true) (hinput : l.input = .ofText line)
    (hline : ch '\n' ∉ line) (hfits : line.length ≤ 1022) (hnul : ∀ c ∈ line, c ≠ 0) :
    l.listenOnce =
      some (({ l with input := ⟨[], true, line.isEmpty⟩ }.feed line).feed [ch '\n']) := by
  simp only [listenOnce, hrun, hinput, InputStream.getline, InputStream.ofText,
    InputStream.extract_end hline hfits]
  simp [cString_eq hnul]

/-- A line that does not fit. -/
theorem listenOnce_full (hrun : l.command.shouldRun = true)
    (hinput : l.input = .ofText (line ++ c :: rest)) (hline : ch '\n' ∉ line)
    (hc : c ≠ ch '\n') (hfull : line.length = 1022) (hnul : ∀ c ∈ line, c ≠ 0) :
    l.listenOnce =
      some (({ l with input := ⟨c :: rest, false, true⟩ }.feed line).feed [ch '\n']) := by
  have hextract := InputStream.extract_full hline hc rest
  rw [hfull] at hextract
  simp only [listenOnce, hrun, hinput, InputStream.getline, InputStream.ofText, hextract]
  simp [cString_eq hnul]

/-- After that, only newlines are given to `parse`. -/
theorem loop_failed (hfail : l.input.failbit = true) (heof : l.input.eofbit = false)
    (h : loop fuel l = some l') : ∃ n, l'.fed = l.fed ++ List.replicate n (ch '\n') := by
  induction fuel generalizing l with
  | zero => simp [loop] at h
  | succ fuel ih =>
    cases hrun : l.command.shouldRun with
    | false =>
      have hend : l.listenOnce = none := by simp [listenOnce, hrun]
      rw [loop, hend] at h
      obtain rfl : l = l' := by simpa using h
      exact ⟨0, by simp⟩
    | true =>
      have hstep : l.listenOnce = some ((l.feed []).feed [ch '\n']) := by
        obtain ⟨command, ⟨rest, eofbit, failbit⟩, fed⟩ := l
        simp only at hfail heof hrun
        subst hfail heof
        simp [listenOnce, hrun, InputStream.getline, cString]
      rw [loop, hstep] at h
      obtain ⟨n, hn⟩ := ih (l := (l.feed []).feed [ch '\n']) hfail heof h
      refine ⟨n + 1, ?_⟩
      rw [hn]
      simp [feed, List.replicate_succ]

/-! ## Whole texts -/

/-- The lines of the text fit in the buffer. -/
def Fits (t : Bytes) : Prop := ∀ line ∈ t.splitOn (ch '\n'), line.length ≤ 1022

theorem fits_newline (hline : ch '\n' ∉ line) :
    Fits (line ++ ch '\n' :: rest) ↔ line.length ≤ 1022 ∧ Fits rest := by
  have hsplit : (line ++ ch '\n' :: rest).splitOn (ch '\n') =
      line :: rest.splitOn (ch '\n') := by
    rw [List.splitOn_append_cons_of_beq _ _ (beq_self_eq_true _), List.splitOn_eq_singleton hline,
      List.singleton_append]
  simp [Fits, hsplit]

theorem fits_line (hline : ch '\n' ∉ line) : Fits line ↔ line.length ≤ 1022 := by
  simp [Fits, List.splitOn_eq_singleton hline]

/-- Lines that fit are given to `parse` one by one. -/
theorem loop_fits (hinput : l.input = .ofText rest) (hcommand : l.command = init.parse l.fed)
    (hrun : ∀ u, u <+: l.fed ++ rest → (init.parse u).shouldRun = true)
    (hnul : ∀ c ∈ rest, c ≠ 0) (hfits : Fits rest) :
    ∃ fuel l', loop fuel l = some l' ∧ l'.fed = l.fed ++ (rest ++ [ch '\n']) := by
  induction hn : rest.length using Nat.strongRecOn generalizing l rest with
  | ind n ih =>
    have hnow : l.command.shouldRun = true := by
      rw [hcommand]
      exact hrun _ (List.prefix_append _ _)
    by_cases hmem : ch '\n' ∈ rest
    · obtain ⟨line, rest', rfl, hline⟩ := List.eq_append_cons_of_mem hmem
      obtain ⟨hlength, hfits'⟩ := (fits_newline hline).mp hfits
      have hstep := listenOnce_newline hnow hinput hline hlength
        fun c hc => hnul c (List.mem_append_left _ hc)
      obtain ⟨fuel, l', hloop, hfed⟩ := ih rest'.length
        (by simp only [List.length_append, List.length_cons] at hn; omega)
        (l := ({ l with input := .ofText rest' }.feed line).feed [ch '\n']) rfl
        (by simp [feed, hcommand, parse, List.foldl_append])
        (fun u hu => hrun u (by simpa [feed] using hu))
        (fun c hc => hnul c (List.mem_append_right _ (List.mem_cons_of_mem _ hc))) hfits' rfl
      refine ⟨fuel + 1, l', ?_, ?_⟩
      · rw [loop, hstep]
        exact hloop
      · rw [hfed]
        simp [feed]
    · have hstep := listenOnce_end hnow hinput hmem ((fits_line hmem).mp hfits) hnul
      have hend : (({ l with input := ⟨[], true, rest.isEmpty⟩ }.feed rest).feed
          [ch '\n']).listenOnce = none := by
        simp [listenOnce, feed]
      have hloop : loop 2 l = some (({ l with input := ⟨[], true, rest.isEmpty⟩ }.feed rest).feed
          [ch '\n']) := by
        simp only [loop, hstep, hend]
      exact ⟨2, _, hloop, by simp [feed]⟩

/-- A line that does not fit is cut off. -/
theorem loop_long (hinput : l.input = .ofText (line ++ rest)) (hline : ch '\n' ∉ line)
    (hlong : 1022 < line.length) (hnul : ∀ c ∈ line, c ≠ 0) (h : loop fuel l = some l') :
    l'.fed ≠ l.fed ++ (line ++ rest ++ [ch '\n']) := by
  cases fuel with
  | zero => simp [loop] at h
  | succ fuel =>
    cases hrun : l.command.shouldRun with
    | false =>
      have hend : l.listenOnce = none := by simp [listenOnce, hrun]
      rw [loop, hend] at h
      obtain rfl : l = l' := by simpa using h
      simp
    | true =>
      have hcut : line = line.take 1022 ++ line.drop 1022 := (List.take_append_drop 1022 line).symm
      obtain ⟨c, after, hafter⟩ : ∃ c after, line.drop 1022 = c :: after :=
        List.exists_cons_of_ne_nil (by simpa using hlong)
      have hc : c ≠ ch '\n' := by
        rintro rfl
        exact hline (List.mem_of_mem_drop (hafter ▸ List.mem_cons_self))
      have hsplit : line ++ rest = line.take 1022 ++ c :: (after ++ rest) := by
        conv => lhs; rw [hcut, hafter]
        simp
      rw [hsplit] at hinput
      have hstep := listenOnce_full hrun hinput (fun h => hline (List.mem_of_mem_take h)) hc
        (by simp; omega) fun d hd => hnul d (List.mem_of_mem_take hd)
      rw [loop, hstep] at h
      obtain ⟨n, hn⟩ := loop_failed rfl rfl h
      rw [hn, hsplit]
      intro heq
      simp only [feed, List.append_assoc, List.append_cancel_left_eq, List.cons_append,
        List.nil_append, List.cons.injEq] at heq
      exact hc heq.1.symm

theorem loop_not_fits (hinput : l.input = .ofText rest) (hnul : ∀ c ∈ rest, c ≠ 0)
    (hfits : ¬ Fits rest) (h : loop fuel l = some l') :
    l'.fed ≠ l.fed ++ (rest ++ [ch '\n']) := by
  induction fuel generalizing l rest with
  | zero => simp [loop] at h
  | succ fuel ih =>
    by_cases hmem : ch '\n' ∈ rest
    · obtain ⟨line, rest', rfl, hline⟩ := List.eq_append_cons_of_mem hmem
      have hnul' : ∀ c ∈ line, c ≠ 0 := fun c hc => hnul c (List.mem_append_left _ hc)
      rcases Nat.lt_or_ge 1022 line.length with hlong | hlength
      · exact loop_long hinput hline hlong hnul' h
      · cases hrun : l.command.shouldRun with
        | false =>
          have hend : l.listenOnce = none := by simp [listenOnce, hrun]
          rw [loop, hend] at h
          obtain rfl : l = l' := by simpa using h
          simp
        | true =>
          have hrest : ¬ Fits rest' := fun hr => hfits ((fits_newline hline).mpr ⟨hlength, hr⟩)
          rw [loop, listenOnce_newline hrun hinput hline hlength hnul'] at h
          have hne := ih (l := ({ l with input := .ofText rest' }.feed line).feed [ch '\n']) rfl
            (fun c hc => hnul c (List.mem_append_right _ (List.mem_cons_of_mem _ hc))) hrest h
          simpa [feed] using hne
    · have hlong : 1022 < rest.length := by
        rw [fits_line hmem] at hfits
        omega
      have hne := @loop_long [] rest l l' (fuel + 1) (by rw [hinput, List.append_nil]) hmem hlong
        hnul h
      simpa using hne

end Listener

/-! ## Being told to quit -/

theorem perform_log (c : UInt8) (acts : List Act) (m : TextCommand) :
    m.log <+: (perform c acts m).2.log := by
  induction acts generalizing m with
  | nil => exact List.prefix_refl _
  | cons action actions ih =>
    have hone : m.log <+: (m.act c action).log := by
      obtain ⟨entries, hlog, -⟩ := act_log m c action
      exact ⟨entries, hlog.symm⟩
    cases action with
    | error => exact hone
    | gotoMain => exact hone
    | _ => exact hone.trans (ih _)

theorem readChar_log (m : TextCommand) (c : UInt8) : m.log <+: (m.readChar c).log := by
  have hexec (m : TextCommand) : m.log <+: (m.exec c).2.log :=
    perform_log c _ { m with currentState := (transition m.currentState c).1 }
  rw [readChar]
  split
  · exact List.prefix_refl _
  · have hfirst := hexec m
    generalize m.exec c = result at hfirst
    obtain ⟨_ | _, m'⟩ := result
    · exact hfirst
    · exact hfirst.trans (hexec m')

theorem parse_log (m : TextCommand) (w : Bytes) : m.log <+: (m.parse w).log := by
  induction w generalizing m with
  | nil => exact List.prefix_refl _
  | cons c w ih => exact (readChar_log m c).trans (ih (m.readChar c))

/-- A command that is not told to quit by a text is not told by the beginning of it. -/
theorem shouldRun_of_prefix {u v : Bytes} (h : (init.parse v).shouldRun = true)
    (hu : u <+: v) : (init.parse u).shouldRun = true := by
  obtain ⟨w, rfl⟩ := hu
  rw [parse_append] at h
  obtain ⟨entries, hlog⟩ := parse_log (init.parse u) w
  rw [shouldRun, ← hlog, List.all_append, Bool.and_eq_true] at h
  exact h.1

/-! ## Listening and parsing -/

/-- Listening to a text is parsing it if and only if its lines fit in the buffer. -/
theorem listensTo_iff (hnul : ∀ c ∈ t, c ≠ 0) (hquit : (init.parse t).shouldRun = true) :
    ListensTo t ↔ ∀ line ∈ t.splitOn (ch '\n'), line.length ≤ 1022 := by
  constructor
  · rintro ⟨fuel, l, hloop, hfed⟩
    by_contra hfits
    exact Listener.loop_not_fits rfl hnul hfits hloop hfed
  · intro hfits
    exact Listener.loop_fits rfl rfl (fun u hu => shouldRun_of_prefix hquit hu) hnul hfits

/-- Two lines, the second without a newline. -/
theorem listensTo_two : ListensTo (bytes ['\n', '#']) ↔
    ∀ line ∈ (bytes ['\n', '#']).splitOn (ch '\n'), line.length ≤ 1022 :=
  listensTo_iff (by decide +kernel) (by decide +kernel)

/-- A comment of 1023 characters. -/
def longComment : Bytes := List.replicate 1023 (ch '#')

/-- The comment keeps the loop from ending. -/
theorem long_line_is_cut : (∀ c ∈ longComment, c ≠ 0) ∧
    (init.parse longComment).shouldRun = true ∧ ¬ ListensTo longComment := by
  have hnul : ∀ c ∈ longComment, c ≠ 0 := fun c hc => by
    rw [List.eq_of_mem_replicate hc]
    decide
  have hnewline : ∀ c ∈ longComment, c ≠ ch '\n' := fun c hc => by
    rw [List.eq_of_mem_replicate hc]
    decide
  have hlong : 1022 < longComment.length := by rw [longComment, List.length_replicate]; decide
  have hread : init.readChar (ch '#') = { init with currentState := 3 } :=
    readChar_silent (k := .hash) (by decide : (1 : Nat) ≠ 0 ∧ 1 < 84) (by decide)
      (by decide +kernel) rfl
  have hparse : init.parse longComment = { init with currentState := 3 } := by
    have hcons : longComment = ch '#' :: List.replicate 1022 (ch '#') := List.replicate_succ
    rw [hcons, List.forall_mem_cons] at hnewline
    rw [hcons, parse_cons, hread]
    exact parse_comment rfl hnewline.2
  refine ⟨hnul, by rw [hparse]; rfl, ?_⟩
  rintro ⟨fuel, l, hloop, hfed⟩
  refine Listener.loop_not_fits rfl hnul (fun hfits => ?_) hloop hfed
  rw [Listener.fits_line fun h => hnewline _ h rfl] at hfits
  exact absurd hfits (Nat.not_le.mpr hlong)

end Rubyk.TextCommand
