/-
  TextCommand/ErrorPosition.lean --- where the `error` action stands in its block.

  `parse` walks over a block with the pointer `p`.  The `error` action moves `p` back
  one char (`fhold`), prints what is there and goes to `eat_line`, and `_again` moves
  `p` on.  `readChar` does not show `p`; here it is an index into the block, which may
  leave the block on either side.

  The machine does the same with `p` (`resume_spec`).  A byte is held only where a line
  refuses it, and the grammar says where that is (`held_iff`), whatever the blocks are.
-/
import Rubyk.TextCommand.Recovery

set_option autoImplicit false

namespace Rubyk.TextCommand

open Lib

variable {m : TextCommand} {c : UInt8} {u w block : Bytes} {blocks : List Bytes}

/-! ## The pointer -/

/-- The `error` action, once. -/
structure Report where
  /-- the size of the block -/
  size : Nat
  /-- `p` as the action is entered -/
  offending : Int
  /-- `p` after `fhold`: what is printed starts here -/
  position : Int
  /-- `p` when the next byte is read -/
  resumed : Int
  /-- the state in which it is read -/
  state : Nat
  deriving DecidableEq, Repr

/-- `parse` from `_resume` on.  There is no result when `p` has left the block, or when the
fuel is used up. -/
def resume (block : Bytes) : Nat → Int → TextCommand → Option (TextCommand × List Report)
  | 0, _, _ => none
  | fuel + 1, p, m =>
      if p = block.length ∨ m.currentState = 0 then some (m, [])
      else if p < 0 then none
      else
        match block[p.toNat]? with
        | none => none
        | some c =>
            let (held, m') := m.exec c
            let p' := if held then p - 1 else p
            let report : Report := ⟨block.length, p, p', p' + 1, m'.currentState⟩
            (resume block fuel (p' + 1) m').map fun result =>
              (result.1, if held then report :: result.2 else result.2)

/-- `parse(block)`, with what the `error` action did.  Every byte is read twice at most. -/
def parseReporting (m : TextCommand) (block : Bytes) : Option (TextCommand × List Report) :=
  resume block (2 * block.length + 1) 0 m

/-- A sequence of calls. -/
def parseAll : TextCommand → List Bytes → Option (TextCommand × List Report)
  | m, [] => some (m, [])
  | m, block :: blocks =>
      (m.parseReporting block).bind fun first =>
        (parseAll first.1 blocks).map fun rest => (rest.1, first.2 ++ rest.2)

/-- The report stays inside its block. -/
def Report.Inside (r : Report) : Prop :=
  (0 ≤ r.position ∧ r.position < r.size) ∧ r.resumed = r.offending ∧ r.state = enEatLine

/-- All reports of a sequence of calls on a new parser stay inside their blocks. -/
def ReportsInside (blocks : List Bytes) : Prop :=
  ∃ m reports, parseAll init blocks = some (m, reports) ∧ ∀ r ∈ reports, r.Inside

/-! ## One byte -/

/-- The transition on the byte is the `error` action. -/
def Held (m : TextCommand) (c : UInt8) : Prop :=
  (delta m.currentState (Cls.of c)).2 = [.error]

theorem exec_held (hm : Running m) (h : Held m c) :
    m.exec c = (true, { m.clear.note .syntaxError with currentState := enEatLine }) := by
  rw [exec_eq hm, h]
  rfl

/-- The byte that was held is read by `eat_line`. -/
theorem readChar_held (hm : Running m) (h : Held m c) :
    m.readChar c =
      ({ m.clear.note .syntaxError with currentState := enEatLine }.exec c).2 := by
  rw [readChar, if_neg hm.1, exec_held hm h]

theorem exec_not_held (hm : Tidy m) (h : ¬ Held m c) : m.exec c = (false, m.readChar c) := by
  have hfalse : (m.exec c).1 = false := by
    rcases tidySpec_all _ hm.state.1 hm.state.2 (Cls.of c) (Cls.mem_all _) with
      ⟨herror, -⟩ | ⟨heat, -⟩ | ⟨hplain, -⟩
    · exact absurd (congrArg Prod.snd herror) h
    · rw [exec_eatLine heat]
    · rw [exec_eq hm.running, perform_plain hplain]
  rw [readChar, if_neg hm.running.1]
  rcases hexec : m.exec c with ⟨held, m'⟩
  rw [hexec] at hfalse
  obtain rfl : held = false := hfalse
  rfl

theorem not_held_eatLine (hm : m.currentState = enEatLine) (c : UInt8) : ¬ Held m c := by
  rw [Held, hm, enEatLine, delta_eatLine]
  split <;> decide

/-! ## One block -/

/-- What every report of a block of this size has in common, when the scan began at
`first`. -/
structure Report.Of (size first : Nat) (r : Report) : Prop where
  size_eq : r.size = size
  position_eq : r.position = r.offending - 1
  resumed_eq : r.resumed = r.offending
  state_eq : r.state = enEatLine
  first_le : (first : Int) ≤ r.offending
  lt_size : r.offending < size

theorem Report.Of.mono {r : Report} {size first first' : Nat} (h : r.Of size first)
    (hle : first' ≤ first) : r.Of size first' :=
  { h with first_le := le_trans (Int.ofNat_le.mpr hle) h.first_le }

/-- The machine in `eat_line`, as the `error` action leaves it. -/
def eating (m : TextCommand) : TextCommand :=
  { m.clear.note .syntaxError with currentState := enEatLine }

theorem tidy_eating (hm : Tidy m) : Tidy m.eating :=
  have heat : enEatLine ∈ states ∧ enEatLine ∉ [0, 83] := by decide
  ⟨heat, hm.currentDirectory, fun _ => cleared_clear m⟩

section Resume

variable {front rest : Bytes} {fuel : Nat}

theorem resume_end (block : Bytes) (m : TextCommand) :
    resume block (fuel + 1) block.length m = some (m, []) := by
  rw [resume, if_pos (Or.inl rfl)]

/-- A byte of the block is read. -/
theorem resume_byte (hm : Running m) {held : Bool} {m' : TextCommand}
    (hexec : m.exec c = (held, m')) :
    resume (front ++ c :: rest) (fuel + 1) front.length m =
      (resume (front ++ c :: rest) fuel
        ((if held then (front.length - 1 : Int) else front.length) + 1) m').map fun result =>
          (result.1, if held then
            ⟨(front ++ c :: rest).length, front.length, front.length - 1, front.length - 1 + 1,
              m'.currentState⟩ :: result.2 else result.2) := by
  have hbyte : (front ++ c :: rest)[(front.length : Int).toNat]? = some c := by simp
  have hinside : ¬ ((front.length : Int) = (front ++ c :: rest).length ∨ m.currentState = 0) := by
    rintro (h | h)
    · simp only [List.length_append, List.length_cons] at h
      omega
    · exact hm.1 h
  rw [resume, if_neg hinside, if_neg (by omega), hbyte]
  simp only [hexec]
  cases held <;> rfl

theorem resume_not_held (hm : Tidy m) (h : ¬ Held m c) :
    resume (front ++ c :: rest) (fuel + 1) front.length m =
      resume ((front ++ [c]) ++ rest) fuel (front ++ [c]).length (m.readChar c) := by
  have hlength : ((front ++ [c]).length : Int) = front.length + 1 := by simp
  rw [resume_byte hm.running (exec_not_held hm h), List.append_assoc, hlength]
  exact Option.map_id_apply

theorem resume_held (hm : Tidy m) (h : Held m c) :
    resume (front ++ c :: rest) (fuel + 1) front.length m =
      (resume (front ++ c :: rest) fuel front.length m.eating).map fun result =>
        (result.1, ⟨(front ++ c :: rest).length, front.length, front.length - 1,
          front.length - 1 + 1, enEatLine⟩ :: result.2) := by
  have hback : (front.length : Int) - 1 + 1 = front.length := Int.sub_add_cancel _ _
  rw [resume_byte hm.running (exec_held hm.running h)]
  simp only [if_true, hback]
  rfl

/-- The scan of the rest of a block: what `readChar` does with its bytes, and one report
where `readChar` refuses one. -/
theorem resume_spec (rest : Bytes) (hm : Tidy m) (hfuel : 2 * rest.length < fuel) :
    ∃ reports, resume (front ++ rest) fuel front.length m = some (m.parse rest, reports) ∧
      (∀ r ∈ reports, r.Of (front ++ rest).length front.length) ∧
        ((∃ r ∈ reports, r.offending = front.length) ↔ ∃ c, rest.head? = some c ∧ Held m c) := by
  induction rest generalizing front m fuel with
  | nil =>
    obtain ⟨fuel, rfl⟩ := Nat.exists_eq_add_one_of_ne_zero (Nat.ne_of_gt hfuel)
    refine ⟨[], ?_, by simp, by simp⟩
    rw [List.append_nil, resume_end, parse_nil]
  | cons c rest ih =>
    -- what follows the byte, once it is read
    have hafter : ∀ (fuel : Nat) (m : TextCommand), Tidy m → ¬ Held m c →
        2 * rest.length < fuel → ∃ reports,
          resume (front ++ c :: rest) (fuel + 1) front.length m =
            some (m.parse (c :: rest), reports) ∧
              ∀ r ∈ reports, r.Of (front ++ c :: rest).length (front.length + 1) := by
      intro fuel m hm h hfuel
      obtain ⟨reports, hresume, hof, -⟩ := @ih _ (front ++ [c]) fuel (tidy_readChar hm c).1 hfuel
      refine ⟨reports, ?_, ?_⟩
      · rw [resume_not_held hm h, hresume, parse_cons]
      · have hlength : (front ++ [c]).length = front.length + 1 := List.length_append
        rwa [List.append_assoc, hlength] at hof
    rw [List.length_cons] at hfuel
    obtain ⟨fuel, rfl⟩ := Nat.exists_eq_add_of_lt hfuel
    by_cases h : Held m c
    · -- the byte is held, and `eat_line` reads it
      obtain ⟨reports, hresume, hof⟩ := hafter (2 * rest.length + 1 + fuel) m.eating
        (tidy_eating hm) (not_held_eatLine rfl c) (by omega)
      have hparse : m.parse (c :: rest) = m.eating.parse (c :: rest) := by
        rw [parse_cons, parse_cons, readChar_held hm.running h]
        have hread := exec_not_held (tidy_eating hm) (not_held_eatLine rfl c)
        rw [← eating, hread]
      refine ⟨⟨(front ++ c :: rest).length, front.length, front.length - 1,
        front.length - 1 + 1, enEatLine⟩ :: reports, ?_, ?_, ?_⟩
      · have hfuel : 2 * (rest.length + 1) + fuel + 1 = (2 * rest.length + 1 + fuel + 1) + 1 := by
          omega
        rw [hfuel, resume_held hm h, hresume, hparse, Option.map_some]
      · intro r hr
        rcases List.mem_cons.mp hr with rfl | hr
        · refine ⟨rfl, rfl, Int.sub_add_cancel _ _, rfl, le_refl _, ?_⟩
          simp only [List.length_append, List.length_cons]
          omega
        · exact (hof r hr).mono (Nat.le_succ _)
      · exact iff_of_true ⟨_, List.mem_cons_self, rfl⟩ ⟨c, rfl, h⟩
    · obtain ⟨reports, hresume, hof⟩ := hafter (2 * rest.length + 2 + fuel) m hm h (by omega)
      refine ⟨reports, ?_, fun r hr => (hof r hr).mono (Nat.le_succ _), ?_⟩
      · rw [← hresume]
        rfl
      · refine iff_of_false ?_ ?_
        · rintro ⟨r, hr, hoff⟩
          have hle := (hof r hr).first_le
          rw [hoff] at hle
          push_cast at hle
          omega
        · rintro ⟨d, hd, hheld⟩
          obtain rfl : c = d := Option.some.inj hd
          exact h hheld

end Resume

/-- A byte that is held is the first of its block, or its report stays inside. -/
theorem Report.Of.inside_iff {size : Nat} {r : Report} (h : r.Of size 0) :
    r.Inside ↔ r.offending ≠ 0 := by
  have hfirst := h.first_le
  have hlast := h.lt_size
  simp only [Inside, h.size_eq, h.position_eq, h.resumed_eq, h.state_eq, and_true]
  push_cast at hfirst
  omega

/-- One call: `parse`, and reports that stay inside the block unless its first byte is
held. -/
theorem parseReporting_spec (hm : Tidy m) (block : Bytes) :
    ∃ reports, m.parseReporting block = some (m.parse block, reports) ∧
      ((∀ r ∈ reports, r.Inside) ↔ ∀ c, block.head? = some c → ¬ Held m c) := by
  obtain ⟨reports, hresume, hof, hfirst⟩ :=
    @resume_spec m [] _ block hm (Nat.lt_succ_self (2 * block.length))
  refine ⟨reports, hresume, ?_⟩
  have hinside : (∀ r ∈ reports, r.Inside) ↔ ¬ ∃ r ∈ reports, r.offending = 0 := by
    rw [not_exists]
    refine forall_congr' fun r => ?_
    rw [not_and]
    exact imp_congr_right fun hr => (hof r hr).inside_iff
  rw [hinside, ← not_exists.trans (forall_congr' fun c => not_and)]
  exact not_congr hfirst

/-! ## Where a byte is held -/

/-- The byte cannot follow on the line that the text has come to. -/
def RefusedAfter (u : Bytes) (c : UInt8) : Prop :=
  ∃ pre w, u = pre ++ w ∧ Lines pre ∧ Viable w ∧ ¬ InLang Grammar.line w ∧ ¬ Viable (w ++ [c])

theorem held_iff (u : Bytes) (c : UInt8) : Held (init.parse u) c ↔ RefusedAfter u c := by
  constructor
  · intro h
    have hposition := position u
    generalize init.parse u = m at h hposition
    cases hposition with
    | @within pre w p hpre hw hp hat _ =>
      refine ⟨pre, w, rfl, hpre, viable_iff.mpr ⟨p, hw⟩, not_inLang_line hw hp, ?_⟩
      rw [Held, hat.delta] at h
      rw [viable_concat hw, lineStep, if_neg hp, h]
      rintro ⟨q, hq⟩
      simp [Plain] at hq
    | eating _ _ _ _ _ hstate _ => exact absurd h (not_held_eatLine hstate c)
  · rintro ⟨pre, w, rfl, hpre, hviable, hline, hrefused⟩
    obtain ⟨p, hrun, hne, hstep⟩ := exists_lineRun_refused hviable hline hrefused
    obtain ⟨hat, -⟩ := parse_lineRun (at_of_lines hpre) hrun
    obtain ⟨rs, ⟨hlive, -⟩, -⟩ := exists_facts_of_lineRun hrun
    have hread := readChar_line hat hlive hne c
    rw [hstep] at hread
    rw [parse_append, Held, hat.delta]
    exact hread.2.1

/-! ## Sequences of calls -/

/-- After the text `u`, no block begins with a byte that the line refuses. -/
def NoneRefusedFirst : Bytes → List Bytes → Prop
  | _, [] => True
  | u, block :: blocks =>
      (∀ c, block.head? = some c → ¬ RefusedAfter u c) ∧ NoneRefusedFirst (u ++ block) blocks

/-- The calls after a text. -/
theorem parseAll_spec (u : Bytes) (blocks : List Bytes) :
    ∃ reports, parseAll (init.parse u) blocks =
        some (init.parse (u ++ blocks.flatten), reports) ∧
      ((∀ r ∈ reports, r.Inside) ↔ NoneRefusedFirst u blocks) := by
  induction blocks generalizing u with
  | nil => exact ⟨[], by simp [parseAll], by simp [NoneRefusedFirst]⟩
  | cons block blocks ih =>
    obtain ⟨first, hfirst, hinside⟩ := parseReporting_spec (tidy_parse tidy_init u).1 block
    obtain ⟨rest, hrest, hinsideRest⟩ := ih (u ++ block)
    refine ⟨first ++ rest, ?_, ?_⟩
    · rw [parse_append, List.append_assoc] at hrest
      rw [parseAll, hfirst, Option.bind_some, hrest, Option.map_some, List.flatten_cons]
    · rw [List.forall_mem_append, hinside, hinsideRest, NoneRefusedFirst]
      refine and_congr_left' (forall_congr' fun c => ?_)
      rw [held_iff]

/-- The reports of a sequence of calls stay inside their blocks exactly when no block begins
with a byte that its line refuses. -/
theorem reportsInside_iff (blocks : List Bytes) :
    ReportsInside blocks ↔ NoneRefusedFirst [] blocks := by
  obtain ⟨reports, hparse, hinside⟩ := parseAll_spec [] blocks
  rw [parse_nil, List.nil_append] at hparse
  rw [← hinside, ReportsInside, hparse]
  constructor
  · rintro ⟨m, found, heq, hall⟩
    obtain ⟨-, rfl⟩ := Prod.mk.inj (Option.some.inj heq)
    exact hall
  · exact fun hall => ⟨_, reports, rfl, hall⟩

/-- The line `a=B` has no parameters: the newline, a block of its own, is refused, and what is
printed starts before it. -/
theorem newline_reported_before_block :
    ¬ ReportsInside [bytes ['a', '=', 'B'], [ch '\n']] := by
  have hrun : (parseAll init [bytes ['a', '=', 'B'], [ch '\n']]).map Prod.snd =
      some [⟨1, 0, -1, 0, enEatLine⟩] := by decide +kernel
  rintro ⟨m, reports, hparse, hinside⟩
  rw [hparse] at hrun
  obtain rfl : reports = _ := Option.some.inj hrun
  exact absurd (hinside _ List.mem_cons_self).1.1 (by decide)

end Rubyk.TextCommand
