/-
  ObjectsOff/TuringRuns.lean --- runs of a machine, whatever happens to it.

  A run is any sequence of scripts, `bang`s, `set_state`s and `jump`s on a new machine.
  Its steps are all defined, and it stays in one of its states, exactly when every
  step meets `Fits` (`safe_iff_fits`).  What does not fit: an accepted script that names
  no state, and `set_state` on a machine that has none (a division by zero); a token
  with a negative remainder (an index below `token_Table`); an entry with the target
  `.` (the state 0); and a script that does not compile and names fewer states than
  the number that the machine keeps.

  `Stable` is the invariant: the tables have a shape, the token is one of their columns
  and the state one of their rows, and they hold a script if `bang` is to use them.
-/
import Rubyk.ObjectsOff.TuringRules

set_option autoImplicit false

namespace Rubyk

open Lib

namespace Turing

/-! ## Steps -/

/-- What can happen to a machine. -/
inductive Action where
  | setScript (script : TuringScript)
  | bang (val : Option Int) (jumps : List String) (answer : LuaAnswer)
  | setState (id : Int)
  | jump (name : String)

/-- An action. -/
def step (m : Turing) : Action → Except TuringFault Turing
  | .setScript script => m.setScript script
  | .bang val jumps answer => do
      let (_, m) ← m.bang val jumps answer
      .ok m
  | .setState id => m.setState id
  | .jump name => m.jump name

/-- A machine that has states is in one of them. -/
def InRange (m : Turing) : Prop := 1 < m.mStateCount → 1 ≤ m.mState ∧ m.mState < m.mStateCount

/-! ## What fits -/

/-- The remainder of an integer is an index of `token_Table`. -/
def TokenFits (val : Option Int) : Prop := ∀ i ∈ val, 0 ≤ i.tmod 256

/-- The column of what comes in, or the one there was. -/
def columnAfter (m : Turing) (column : Int) (val : Option Int) : Int :=
  val.elim column fun i => m.tokenTable (i.tmod 256).toNat

/-- Where `jump` leads. -/
def jumpTarget (m : Turing) (i : Int) (name : String) : Int :=
  match m.mStateByName name with
  | some id => 1 + (sizeT (id - 1) % (m.mStateCount - 1) : Nat)
  | none => i

/-- The entry that applies in row `i` and column `j` has the target `.`. -/
def DotApplies (m : Turing) (i j : Int) : Prop :=
  m.mGotoTable.read i j = some 0 ∨
    (m.mGotoTable.read i j = some (-1) ∧
      (m.mGotoTable.read 0 j = some 0 ∨
        (m.mGotoTable.read 0 j = some (-1) ∧ m.mGotoTable.read i 0 = some 0)))

/-- Lua's answer is nil, or the tables can be used with it. -/
def AnswerFits (m : Turing) (i j : Int) : LuaAnswer → Prop
  | .nil => True
  | .bang => ¬ m.DotApplies i j
  | .value token => TokenFits token ∧ ¬ m.DotApplies i (m.columnAfter j token)

/-- The condition on an action. -/
def Fits (m : Turing) : Action → Prop
  | .setScript script =>
      if script.compiles then stateNames script.rules ≠ []
      else stateNames script.rules = [] ∨ m.mState < (stateNames script.rules).length + 1
  | .bang val jumps answer =>
      m.isOk = true → TokenFits val ∧
        (m.scriptOk = true →
          m.AnswerFits (jumps.foldl m.jumpTarget m.mState) (m.columnAfter m.token val) answer)
  | .setState _ => m.mStateCount ≠ 1
  | .jump name => ¬ (m.mStateCount = 1 ∧ name = "-")

/-! ## The invariant -/

/-- What every step that fits keeps. -/
structure Stable (m : Turing) : Prop where
  shape : ∃ names tokens goto send, m.Shape names tokens goto send ∧ "-" ∉ names
  /-- `bang` uses the tables of a script that names a state -/
  ready : m.scriptOk = true → 1 < m.mStateCount ∧ ∃ rules, m.Compiled rules
  token : ∃ j : Nat, m.token = j ∧ j < m.tokenCount
  positive : 1 ≤ m.mState
  inRange : m.InRange

section Steps

variable {m : Turing} {names : List String} {tokens : List Nat} {goto : Nat → Nat → Int}
  {send : Nat → Nat → Option TuringSend} {rules : List Rule}

theorem init_stable (isOk : Bool) : (init isOk).Stable where
  shape := ⟨[], [], _, _, clearTables_shape _, List.not_mem_nil⟩
  ready := nofun
  token := ⟨0, rfl, Nat.one_pos⟩
  positive := Int.le_refl 1
  inRange := fun h => absurd h (Nat.lt_irrefl 1)

/-! ## `set_state` and `jump` -/

theorem setState_eq (h : 1 < m.mStateCount) (id : Int) :
    m.setState id = .ok { m with mState := 1 + (sizeT (id - 1) % (m.mStateCount - 1) : Nat) } := by
  rw [setState, if_neg (by omega)]

theorem setState_of_stateless (h : m.mStateCount = 1) (id : Int) :
    m.setState id = .error .divisionByZero := by
  rw [setState, if_pos (by omega)]

/-- `set_state` leads to a state. -/
theorem setState_range (h : 1 < m.mStateCount) (id : Int) :
    (1 : Int) ≤ 1 + (sizeT (id - 1) % (m.mStateCount - 1) : Nat) ∧
      (1 : Int) + (sizeT (id - 1) % (m.mStateCount - 1) : Nat) < m.mStateCount := by
  have hlt : sizeT (id - 1) % (m.mStateCount - 1) < m.mStateCount - 1 :=
    Nat.mod_lt _ (by omega)
  omega

theorem jump_eq (h : 1 < m.mStateCount) (name : String) :
    m.jump name = .ok { m with mState := m.jumpTarget m.mState name } := by
  unfold jump jumpTarget
  cases m.mStateByName name with
  | none => rfl
  | some id => exact setState_eq h id

theorem jumpTarget_range (h : 1 < m.mStateCount) {i : Int} (hi : 1 ≤ i ∧ i < m.mStateCount)
    (name : String) : 1 ≤ m.jumpTarget i name ∧ m.jumpTarget i name < m.mStateCount := by
  unfold jumpTarget
  cases m.mStateByName name with
  | none => exact hi
  | some id => exact setState_range h id

/-- The calls of `jump` from Lua. -/
theorem jumps_eq (h : 1 < m.mStateCount) (jumps : List String) :
    jumps.foldlM jump m = .ok { m with mState := jumps.foldl m.jumpTarget m.mState } := by
  induction jumps generalizing m with
  | nil => rfl
  | cons name jumps ih =>
    rw [List.foldlM_cons, jump_eq h name, ok_bind]
    exact ih (m := { m with mState := m.jumpTarget m.mState name }) h

theorem jumps_range (h : 1 < m.mStateCount) (jumps : List String) {i : Int}
    (hi : 1 ≤ i ∧ i < m.mStateCount) :
    1 ≤ jumps.foldl m.jumpTarget i ∧ jumps.foldl m.jumpTarget i < m.mStateCount := by
  induction jumps generalizing i with
  | nil => exact hi
  | cons name jumps ih => exact ih (jumpTarget_range h hi name)

/-- A machine that is moved to one of its states is stable. -/
theorem Stable.move (h : m.Stable) {i : Int} (hi : 1 ≤ i ∧ i < m.mStateCount) :
    { m with mState := i }.Stable where
  shape := by
    obtain ⟨names, tokens, goto, send, hshape, hdash⟩ := h.shape
    exact ⟨names, tokens, goto, send, { hshape with }, hdash⟩
  ready := fun hok => by
    obtain ⟨hcount, rules, hcompiled⟩ := h.ready hok
    exact ⟨hcount, rules, { hcompiled with }⟩
  token := h.token
  positive := hi.1
  inRange := fun _ => hi

theorem Stable.count_pos (h : m.Stable) : 1 ≤ m.mStateCount := by
  obtain ⟨names, _, _, _, hshape, _⟩ := h.shape
  rw [hshape.count]
  omega

/-- A machine without states knows the name `-` only. -/
theorem Stable.byName_of_stateless (h : m.Stable) (hcount : m.mStateCount = 1) {name : String}
    (hname : name ≠ "-") : m.mStateByName name = none := by
  obtain ⟨names, _, _, _, hshape, _⟩ := h.shape
  have hnil : names = [] := List.length_eq_zero_iff.mp (by have := hshape.count; omega)
  rw [hshape.byName, if_neg hname, hnil, if_neg List.not_mem_nil]

/-! ## Tokens -/

theorem readToken_eq {val : Option Int} (h : TokenFits val) :
    m.readToken val = .ok { m with token := m.columnAfter m.token val } := by
  cases val with
  | none => rfl
  | some i =>
    have hpos := h i rfl
    rw [readToken, if_neg (by omega)]
    rfl

theorem readToken_of_unfit {val : Option Int} (h : ¬ TokenFits val) :
    m.readToken val = .error .outOfRange := by
  cases val with
  | none => exact absurd nofun h
  | some i =>
    have hneg : i.tmod 256 < 0 := by
      by_contra hpos
      refine h fun k hk => ?_
      obtain rfl := Option.some.inj hk
      omega
    rw [readToken, if_pos hneg]

/-- The column of a token is one of the table. -/
theorem Shape.column_lt (h : m.Shape names tokens goto send) (t : Nat) :
    m.tokenTable t < m.tokenCount := by
  rw [h.tokenTable, h.tokenCount]
  split
  · rename_i hmem
    have hlt := List.idxOf_lt_length_of_mem hmem
    omega
  · omega

/-- A machine that has read a token is stable. -/
theorem Stable.read (h : m.Stable) (val : Option Int) :
    { m with token := m.columnAfter m.token val }.Stable where
  shape := by
    obtain ⟨names, tokens, goto, send, hshape, hdash⟩ := h.shape
    exact ⟨names, tokens, goto, send, { hshape with }, hdash⟩
  ready := fun hok => by
    obtain ⟨hcount, rules, hcompiled⟩ := h.ready hok
    exact ⟨hcount, rules, { hcompiled with }⟩
  token := by
    obtain ⟨names, tokens, goto, send, hshape, _⟩ := h.shape
    cases val with
    | none => exact h.token
    | some i => exact ⟨_, rfl, hshape.column_lt _⟩
  positive := h.positive
  inRange := h.inRange

/-! ## `bang` -/

/-- A cell of the goto table is the default, or a row. -/
theorem gotoCell_range (rules : List Rule) {i : Nat} (hi : i < (stateNames rules).length + 1)
    (j : Nat) :
    cellsOf gotoFill rules (targetId rules) i j = -1 ∨
      (0 ≤ cellsOf gotoFill rules (targetId rules) i j ∧
        cellsOf gotoFill rules (targetId rules) i j < ((stateNames rules).length + 1 : Nat)) := by
  unfold cellsOf
  split
  · rename_i r hfind
    have hr := List.mem_reverse.mp (List.mem_of_find?_eq_some hfind)
    have hlt := stateId_lt (known_of_mem hr).2.1
    exact .inr ⟨Int.natCast_nonneg _, Int.ofNat_lt.mpr hlt⟩
  · unfold blankCell
    split
    · exact .inr ⟨Int.natCast_nonneg _, Int.ofNat_lt.mpr hi⟩
    · exact .inl rfl

/-- The default of a state is a row. -/
theorem gotoDefault_ne (rules : List Rule) {i : Nat} (hi : i ≠ 0) :
    cellsOf gotoFill rules (targetId rules) i 0 ≠ -1 := by
  unfold cellsOf
  split
  · rename_i r _
    have hpos : 0 ≤ targetId rules r := Int.natCast_nonneg _
    omega
  · have hpos : (0 : Int) ≤ i := Int.natCast_nonneg i
    rw [blankCell, if_pos ⟨hi, .inl rfl⟩]
    change (i : Int) ≠ -1
    omega

/-- The default of a state is something to send. -/
theorem sendDefault_ne (rules : List Rule) {i : Nat} (hi : i ≠ 0) :
    cellsOf sendFill rules sendOf i 0 ≠ none := by
  unfold cellsOf
  split
  · simp [sendOf]
  · simp [blankCell, hi, sendFill]

/-- What is picked is a row, and when it is row 0. -/
theorem pick_range {own ofToken ofState n : Int} (hown : own = -1 ∨ (0 ≤ own ∧ own < n))
    (hofToken : ofToken = -1 ∨ (0 ≤ ofToken ∧ ofToken < n))
    (hofState : ofState = -1 ∨ (0 ≤ ofState ∧ ofState < n)) (hdefault : ofState ≠ -1) :
    0 ≤ pick (-1) own ofToken ofState ∧ pick (-1) own ofToken ofState < n ∧
      (pick (-1) own ofToken ofState = 0 ↔
        own = 0 ∨ (own = -1 ∧ (ofToken = 0 ∨ (ofToken = -1 ∧ ofState = 0)))) := by
  unfold pick
  split
  · split
    · omega
    · omega
  · omega

/-- The use of the tables is defined in a state, and leads to a row of the tables. -/
theorem Compiled.react_eq (h : m.Compiled rules) {i j : Nat} (hstate : m.mState = i)
    (htoken : m.token = j) (hi : 1 ≤ i ∧ i < m.mStateCount) (hj : j < m.tokenCount) :
    ∃ send next, m.react = .ok (some send, { m with mState := next }) ∧ 0 ≤ next ∧
      next < m.mStateCount ∧ (next = 0 ↔ m.DotApplies i j) := by
  rw [h.count] at hi
  rw [h.tokenCount] at hj
  have hwidth : ∀ k, j < rowWidth (tokensOf rules) k := fun k =>
    Nat.lt_of_lt_of_le hj (Nat.le_add_right _ _)
  -- what is sent: the default of the state is never `NULL`
  have hsend : ∃ send, m.chooseSend = .ok (some send) := by
    rw [h.chooseSend_eq hstate htoken hi.2 hwidth]
    have hdefault := sendDefault_ne rules (i := i) (by omega)
    cases hpick : pick none (cellsOf sendFill rules sendOf i j)
        (cellsOf sendFill rules sendOf 0 j) (cellsOf sendFill rules sendOf i 0) with
    | some send => exact ⟨send, rfl⟩
    | none =>
      unfold pick at hpick
      split at hpick
      · split at hpick <;> contradiction
      · contradiction
  -- the next state: the default of the state is never the default
  have hstates := h.chooseState_eq hstate htoken hi.2 hwidth
  have hreadOwn : m.mGotoTable.read i j = some (cellsOf gotoFill rules (targetId rules) i j) :=
    (Rows.read_natCast _ i j).trans (h.gotoTable.cell_eq hi.2 (hwidth i))
  have hreadToken : m.mGotoTable.read 0 j = some (cellsOf gotoFill rules (targetId rules) 0 j) :=
    (Rows.read_natCast _ 0 j).trans (h.gotoTable.cell_eq (Nat.succ_pos _) (hwidth 0))
  have hreadState : m.mGotoTable.read i 0 = some (cellsOf gotoFill rules (targetId rules) i 0) :=
    (Rows.read_natCast _ i 0).trans
      (h.gotoTable.cell_eq hi.2 (Nat.lt_of_le_of_lt (Nat.zero_le j) (hwidth i)))
  have hrange := pick_range (gotoCell_range rules hi.2 j)
    (gotoCell_range rules (i := 0) (Nat.succ_pos _) j) (gotoCell_range rules hi.2 0)
    (gotoDefault_ne rules (by omega))
  obtain ⟨send, hsend⟩ := hsend
  refine ⟨send, _, by rw [react, hsend, hstates]; rfl, ?_⟩
  rw [DotApplies, hreadOwn, hreadToken, hreadState, h.count]
  simpa only [Option.some.injEq] using hrange

/-! ## What a step does -/

/-- The outcome is a stable machine if `Q`, and else not defined or out of range. -/
def StableIff (x : Except TuringFault Turing) (Q : Prop) : Prop :=
  (Q → ∃ t, x = .ok t ∧ t.Stable) ∧ (¬ Q → ∀ t, x = .ok t → ¬ t.InRange)

theorem stableIff_ok {Q : Prop} (h : m.Stable) (hQ : Q) : StableIff (.ok m) Q :=
  ⟨fun _ => ⟨m, rfl, h⟩, fun hno => absurd hQ hno⟩

theorem stableIff_error {Q : Prop} (e : TuringFault) (hQ : ¬ Q) : StableIff (.error e) Q :=
  ⟨fun hyes => absurd hyes hQ, fun _ _ hok => nomatch hok⟩

theorem StableIff.congr {x : Except TuringFault Turing} {Q Q' : Prop} (h : StableIff x Q)
    (hQ : Q ↔ Q') : StableIff x Q' :=
  ⟨fun hyes => h.1 (hQ.mpr hyes), fun hno => h.2 fun hyes => hno (hQ.mp hyes)⟩

theorem setState_stableIff (h : m.Stable) (id : Int) :
    StableIff (m.setState id) (m.mStateCount ≠ 1) := by
  by_cases hcount : m.mStateCount = 1
  · rw [setState_of_stateless hcount]
    exact stableIff_error _ (not_not.mpr hcount)
  · have hstates : 1 < m.mStateCount := by
      have hpos := h.count_pos
      omega
    rw [setState_eq hstates]
    exact stableIff_ok (h.move (setState_range hstates id)) hcount

theorem jump_stableIff (h : m.Stable) (name : String) :
    StableIff (m.jump name) (¬ (m.mStateCount = 1 ∧ name = "-")) := by
  by_cases hcount : m.mStateCount = 1
  · by_cases hname : name = "-"
    · obtain ⟨names, _, _, _, hshape, _⟩ := h.shape
      rw [jump, hshape.byName, if_pos hname]
      change StableIff (m.setState 0) _
      rw [setState_of_stateless hcount]
      exact stableIff_error _ fun hno => hno ⟨hcount, hname⟩
    · rw [jump, h.byName_of_stateless hcount hname]
      exact stableIff_ok h fun hboth => hname hboth.2
  · have hstates : 1 < m.mStateCount := by
      have hpos := h.count_pos
      omega
    rw [jump_eq hstates]
    exact stableIff_ok (h.move (jumpTarget_range hstates (h.inRange hstates) name))
      fun hboth => hcount hboth.1

/-- The use of the tables by a stable machine. -/
theorem react_stableIff (h : m.Stable) (hok : m.scriptOk = true) :
    StableIff (m.react >>= fun out => .ok out.2) (¬ m.DotApplies m.mState m.token) := by
  obtain ⟨hstates, rules, hcompiled⟩ := h.ready hok
  obtain ⟨hpos, hlt⟩ := h.inRange hstates
  obtain ⟨i, hi⟩ := Int.eq_ofNat_of_zero_le (Int.le_trans Int.one_nonneg hpos)
  obtain ⟨j, hj, hcolumn⟩ := h.token
  obtain ⟨send, next, hreact, hnonneg, hnext, hzero⟩ :=
    hcompiled.react_eq hi hj ⟨by omega, by omega⟩ hcolumn
  rw [hreact, ok_bind]
  constructor
  · intro hno
    rw [hi, hj] at hno
    have hne : next ≠ 0 := fun heq => hno (hzero.mp heq)
    exact ⟨_, rfl, h.move ⟨by omega, hnext⟩⟩
  · intro hdot t ht hrange
    rw [hi, hj] at hdot
    obtain rfl := Except.ok.inj ht
    have hstate : 1 ≤ next := (hrange hstates).1
    rw [hzero.mpr (not_not.mp hdot)] at hstate
    exact absurd hstate (by decide)

/-- `bang` after the calls of `jump`. -/
def answered (m : Turing) : LuaAnswer → Except TuringFault (Option TuringSend × Turing)
  | .nil => .ok (none, m)
  | .bang => m.react
  | .value token => do
      let m ← m.readToken token
      m.react

theorem answered_stableIff (h : m.Stable) (hok : m.scriptOk = true) (answer : LuaAnswer) :
    StableIff (m.answered answer >>= fun out => .ok out.2)
      (m.AnswerFits m.mState m.token answer) := by
  cases answer with
  | nil => exact stableIff_ok h trivial
  | bang => exact react_stableIff h hok
  | value token =>
    change StableIff ((m.readToken token >>= fun m => m.react) >>= _) _
    by_cases htoken : TokenFits token
    · rw [readToken_eq htoken]
      exact (react_stableIff (h.read token) hok).congr (and_iff_right htoken).symm
    · rw [readToken_of_unfit htoken]
      exact stableIff_error _ fun hfits => htoken hfits.1

theorem bang_eq_answered (hisOk : m.isOk = true) (hok : m.scriptOk = true)
    (hstates : 1 < m.mStateCount) {val : Option Int} (hval : TokenFits val)
    (jumps : List String) (answer : LuaAnswer) :
    m.bang val jumps answer =
      { m with token := m.columnAfter m.token val
               mState := jumps.foldl m.jumpTarget m.mState }.answered answer := by
  have hjumps := jumps_eq (m := { m with token := m.columnAfter m.token val }) hstates jumps
  simp only [bang, hisOk, readToken_eq hval, ok_bind, hok, Bool.not_true, Bool.false_eq_true,
    if_false]
  simp only [hisOk, hok] at hjumps
  rw [hjumps]
  cases answer <;> rfl

theorem bang_stableIff (h : m.Stable) (val : Option Int) (jumps : List String)
    (answer : LuaAnswer) :
    StableIff (m.step (.bang val jumps answer)) (m.Fits (.bang val jumps answer)) := by
  change StableIff (m.bang val jumps answer >>= fun out => .ok out.2) _
  by_cases hisOk : m.isOk = true
  · by_cases hval : TokenFits val
    · by_cases hok : m.scriptOk = true
      · obtain ⟨hstates, -⟩ := h.ready hok
        rw [bang_eq_answered hisOk hok hstates hval]
        have hmoved := (h.read val).move (jumps_range hstates jumps (h.inRange hstates))
        exact (answered_stableIff hmoved hok answer).congr
          ⟨fun hfits _ => ⟨hval, fun _ => hfits⟩, fun hfits => (hfits hisOk).2 hok⟩
      · have hbang : m.bang val jumps answer =
            .ok (none, { m with token := m.columnAfter m.token val }) := by
          simp [bang, hisOk, readToken_eq hval, hok]
        rw [hbang]
        exact stableIff_ok (h.read val) fun _ => ⟨hval, fun hyes => absurd hyes hok⟩
    · have hbang : m.bang val jumps answer = .error .outOfRange := by
        simp [bang, hisOk, readToken_of_unfit hval]
      rw [hbang]
      exact stableIff_error _ fun hfits => hval (hfits hisOk).1
  · have hbang : m.bang val jumps answer = .ok (none, m) := by simp [bang, hisOk]
    rw [hbang]
    exact stableIff_ok h fun hyes => absurd hyes hisOk

/-! ## `eval_script` -/

/-- The name that `eval_script` looks up in the names of the states. -/
def nameAt (names : List String) (i : Int) : String :=
  if names = [] then "" else (("-" :: names)[sizeT i % (names.length + 1)]?).getD ""

/-- The state that a script starts in, after a state of this name. -/
def landing (names : List String) (old : String) : Int :=
  if old ∈ names then (names.idxOf old + 1 : Nat) else 1

theorem Shape.oldStateName_eq (h : m.Shape names tokens goto send) :
    m.oldStateName = .ok (nameAt names m.mState) := by
  rw [oldStateName, nameAt, h.count, h.stateNames]
  cases names with
  | nil => rfl
  | cons name names =>
    have hlt : sizeT m.mState % ((name :: names).length + 1) <
        ("-" :: name :: names).length := Nat.mod_lt _ (Nat.succ_pos _)
    rw [if_pos (by simp), if_neg (List.cons_ne_nil _ _), List.getElem?_eq_getElem hlt]
    rfl

/-- The name of a machine that is in one of its states. -/
theorem nameAt_eq {i : Nat} (hi : i < names.length) : nameAt names (i + 1 : Nat) = names[i] := by
  have hne : names ≠ [] := fun hnil => by simp [hnil] at hi
  have hmod : sizeT ((i + 1 : Nat) : Int) % (names.length + 1) = i + 1 := by
    rw [sizeT, if_pos (Int.natCast_nonneg _), Int.toNat_natCast, Nat.mod_eq_of_lt (by omega)]
  rw [nameAt, if_neg hne, hmod, List.getElem?_cons_succ, List.getElem?_eq_getElem hi]
  rfl

/-- The end of `eval_script`. -/
theorem Shape.restoreState_eq (h : m.Shape names tokens goto send) (hne : names ≠ [])
    (hempty : "" ∉ names) {old : String} (hold : old ≠ "-") :
    m.restoreState old = .ok { m with mState := landing names old } := by
  have hlen := List.length_pos_of_ne_nil hne
  have hstates : 1 < m.mStateCount := by
    rw [h.count]
    omega
  have hfirst : m.setState 1 = .ok { m with mState := 1 } := by
    rw [setState_eq hstates]
    simp [sizeT]
  unfold restoreState landing
  by_cases hnone : old = ""
  · rw [if_pos hnone, hfirst, if_neg (hnone ▸ hempty)]
  · rw [if_neg hnone, h.byName, if_neg hold]
    by_cases hmem : old ∈ names
    · rw [if_pos hmem, if_pos hmem]
    · rw [if_neg hmem, if_neg hmem]
      exact hfirst

theorem Shape.restoreState_of_stateless (h : m.Shape [] tokens goto send) {old : String}
    (hold : old ≠ "-") : m.restoreState old = .error .divisionByZero := by
  have hfirst : m.setState 1 = .error .divisionByZero := setState_of_stateless h.count 1
  unfold restoreState
  by_cases hnone : old = ""
  · rw [if_pos hnone, hfirst]
  · rw [if_neg hnone, h.byName, if_neg hold, if_neg List.not_mem_nil]
    exact hfirst

/-- The names of states are identifiers. -/
theorem dash_notMem_stateNames (rules : List Rule) : "-" ∉ stateNames rules := fun h =>
  (mem_stateNames_iff.mp h).ne_dash rfl

theorem empty_notMem_stateNames (rules : List Rule) : "" ∉ stateNames rules := by
  intro h
  obtain ⟨r, -, id, -, -, hname⟩ := mem_stateNames_iff.mp h
  exact id.ne_empty hname

/-- A script that does not compile leaves its tables, and the machine stays at its number. -/
theorem setScript_of_not_compiles (h : m.Shape names tokens goto send) {script : TuringScript}
    (hs : script.compiles = false) :
    ∃ t tokens' goto' send', m.setScript script = .ok t ∧
      t.Shape (stateNames script.rules) tokens' goto' send' ∧ t.scriptOk = false ∧ t.token = 0 ∧
      t.mState = m.mState := by
  obtain ⟨t, hcompile, hcompiled, hsame⟩ := compile_shape { m with token := 0 } script.rules
  rw [setScript, h.oldStateName_eq, ok_bind, hcompile, ok_bind]
  unfold TuringScript.compiles at hs
  cases hend : script.parseEnd with
  | accepted luaOk =>
    cases luaOk with
    | true => simp [hend] at hs
    | false =>
      exact ⟨_, _, _, _, rfl, { hcompiled with }, rfl, hsame.token, hsame.mState⟩
  | rejected token =>
    obtain ⟨-, hshape, hkept⟩ := tokenOf_shape hcompiled token
    exact ⟨_, _, _, _, rfl, { hshape with }, rfl, hkept.token.trans hsame.token,
      hkept.mState.trans hsame.mState⟩

/-- A script that compiles looks for the state of the old name. -/
theorem setScript_of_compiles (h : m.Shape names tokens goto send) {script : TuringScript}
    (hs : script.compiles = true) :
    ∃ t : Turing, t.Compiled script.rules ∧ t.token = 0 ∧ t.mState = m.mState ∧
      m.setScript script = t.restoreState (nameAt names m.mState) >>= fun t' =>
        .ok { t' with scriptOk := decide (1 < t'.mStateCount) } := by
  obtain ⟨t, hcompile, hcompiled, hsame⟩ := compile_shape { m with token := 0 } script.rules
  have hend : script.parseEnd = .accepted true := by simpa [TuringScript.compiles] using hs
  refine ⟨t, hcompiled, hsame.token, hsame.mState, ?_⟩
  rw [setScript, h.oldStateName_eq, ok_bind, hcompile, ok_bind, hend]

theorem landing_range (hne : names ≠ []) (old : String) :
    1 ≤ landing names old ∧ landing names old < (names.length + 1 : Nat) := by
  have hlen := List.length_pos_of_ne_nil hne
  unfold landing
  split
  · rename_i hmem
    have hlt := List.idxOf_lt_length_of_mem hmem
    omega
  · omega

/-- A stable machine is not in the state `-`. -/
theorem Stable.nameAt_ne_dash (h : m.Stable) (hshape : m.Shape names tokens goto send)
    (hdash : "-" ∉ names) : nameAt names m.mState ≠ "-" := by
  by_cases hnil : names = []
  · simp [nameAt, hnil]
  · have hlen := List.length_pos_of_ne_nil hnil
    have hcount := hshape.count
    obtain ⟨hpos, hlt⟩ := h.inRange (by omega)
    obtain ⟨i, hi⟩ : ∃ i : Nat, m.mState = (i + 1 : Nat) := ⟨m.mState.toNat - 1, by omega⟩
    have hname : i < names.length := by omega
    rw [hi, nameAt_eq hname]
    exact fun heq => hdash (heq ▸ List.getElem_mem hname)

theorem setScript_stableIff (h : m.Stable) (script : TuringScript) :
    StableIff (m.setScript script) (m.Fits (.setScript script)) := by
  obtain ⟨names, tokens, goto, send, hshape, hdash⟩ := h.shape
  have hold := h.nameAt_ne_dash hshape hdash
  have hdash' := dash_notMem_stateNames script.rules
  by_cases hs : script.compiles = true
  · obtain ⟨t, hcompiled, htoken, -, hrun⟩ := setScript_of_compiles hshape hs
    rw [Fits, if_pos hs, hrun]
    by_cases hnil : stateNames script.rules = []
    · have hstateless := hcompiled
      rw [Compiled, hnil] at hstateless
      rw [hstateless.restoreState_of_stateless hold]
      exact stableIff_error _ (not_not.mpr hnil)
    · rw [hcompiled.restoreState_eq hnil (empty_notMem_stateNames _) hold, ok_bind]
      have hrange := landing_range hnil (nameAt names m.mState)
      have hlen := List.length_pos_of_ne_nil hnil
      have hcount := hcompiled.count
      have hstates : 1 < t.mStateCount := by omega
      refine stableIff_ok ?_ hnil
      exact
        { shape := ⟨_, _, _, _, { hcompiled with }, hdash'⟩
          ready := fun _ => ⟨hstates, script.rules, { hcompiled with }⟩
          token := ⟨0, htoken, by rw [hcompiled.tokenCount]; omega⟩
          positive := hrange.1
          inRange := fun _ => ⟨hrange.1, by rw [hcount]; exact hrange.2⟩ }
  · obtain ⟨t, tokens', goto', send', hrun, hshape', hscriptOk, htoken, hstate⟩ :=
      setScript_of_not_compiles hshape (Bool.not_eq_true _ ▸ hs)
    have hcount := hshape'.count
    rw [Fits, if_neg hs, hrun]
    constructor
    · intro hfits
      refine ⟨t, rfl, ?_⟩
      exact
        { shape := ⟨_, _, _, _, hshape', hdash'⟩
          ready := fun hok => absurd hok (by simp [hscriptOk])
          token := ⟨0, htoken, by rw [hshape'.tokenCount]; omega⟩
          positive := hstate ▸ h.positive
          inRange := fun hstates => by
            rw [hstate, hcount]
            refine ⟨h.positive, hfits.resolve_left fun hnil => ?_⟩
            rw [hcount, hnil] at hstates
            exact absurd hstates (Nat.lt_irrefl 1) }
    · rintro hunfit t' ht hrange
      obtain rfl := Except.ok.inj ht
      rw [not_or] at hunfit
      have hlen := List.length_pos_of_ne_nil hunfit.1
      have hlt := (hrange (by omega)).2
      rw [hstate, hcount] at hlt
      exact hunfit.2 hlt

/-- What every step does. -/
theorem step_stableIff (h : m.Stable) (a : Action) : StableIff (m.step a) (m.Fits a) := by
  cases a with
  | setScript script => exact setScript_stableIff h script
  | bang val jumps answer => exact bang_stableIff h val jumps answer
  | setState id => exact setState_stableIff h id
  | jump name => exact jump_stableIff h name

end Steps

/-- The steps of a run of a new machine are defined, and leave it in one of its states if it has
one, exactly when they all fit. -/
theorem safe_iff_fits (isOk : Bool) (actions : List Action) :
    Safe step InRange (init isOk) actions ↔ Meets step Fits (init isOk) actions := by
  refine safe_iff_meets (fun m a (h : m.Stable) => ?_) (fun m a t h ht hrange => ?_)
    (init_stable isOk) actions
  · obtain ⟨hfits, hunfit⟩ := step_stableIff h a
    constructor
    · rintro ⟨t, ht, hrange⟩
      by_contra hno
      exact hunfit hno t ht hrange
    · intro hyes
      obtain ⟨t, ht, hstable⟩ := hfits hyes
      exact ⟨t, ht, hstable.inRange⟩
  · obtain ⟨hfits, hunfit⟩ := step_stableIff h a
    have hyes : m.Fits a := by
      by_contra hno
      exact hunfit hno t ht hrange
    obtain ⟨t', ht', hstable⟩ := hfits hyes
    obtain rfl := Except.ok.inj (ht.symm.trans ht')
    exact hstable

/-- `a -> .`. -/
def toDotScript : TuringScript :=
  ⟨[⟨⟨"a", isIdentifier_a⟩, none, none, ⟨".", isIdentifier_dot⟩⟩], .accepted true⟩

/-- The empty script divides by zero, the target `.` leads to the number 0, and the token -1 has
no place in `token_Table`. -/
theorem accepted_script_unsafe :
    (init true).step (.setScript ⟨[], .accepted true⟩) = .error .divisionByZero ∧
      (∃ m m', (init true).step (.setScript toDotScript) = .ok m ∧
        m.step (.bang (some 1) [] (.value (some 1))) = .ok m' ∧
        m'.mStateCount = 2 ∧ m'.mState = 0) ∧
      (∃ m, (init true).step (.setScript toDotScript) = .ok m ∧
        m.step (.bang (some (-1)) [] (.value (some (-1)))) = .error .outOfRange) ∧
      ¬ Safe step InRange (init true) [.setScript ⟨[], .accepted true⟩] := by
  have hempty : (init true).step (.setScript ⟨[], .accepted true⟩) = .error .divisionByZero := rfl
  refine ⟨hempty, ⟨_, _, rfl, rfl, rfl, rfl⟩, ⟨_, rfl, rfl⟩, ?_⟩
  rintro ⟨t, ht, -⟩
  rw [hempty] at ht
  cases ht

end Turing

end Rubyk
