/-
  ObjectsOff/Turing.lean --- `Turing` of `src/objects_off/Turing.rl`: a machine whose
  tables are compiled from a script.

  WHAT IS MODELLED.  The actions of the parser that build the tables, `eval_script`,
  `bang`, `set_state` and `jump`.  A script is the list of its entries and how the
  parser leaves it.  `set_target` and `add_entry` always run together, on the character
  after the target; `set_token` runs earlier, so a script that is rejected part way may
  have added a token without an entry.  Numbers in a script fit an `int`.

  SCRIPT.  The class `Script` is not in the repository; `script_ok_` is what the last
  `eval_script` returned.

  LUA.  Whether the Lua part of a script compiles, and what the Lua function `bang` does
  and answers, comes from outside.  What a method sends from Lua is left out: the
  outcome of a `bang` is the entry of the send table that was chosen.

  TABLES.  A cell `-1` or `NULL` means "use the default"; reading or writing outside of
  a table is an error.  The names of tokens, the list of sends and what is printed are
  left out: nothing here reads them.
-/
import Mathlib.Algebra.Ring.Int.Defs
import Mathlib.Logic.Function.Basic
import Rubyk.Lib.Rows
import Rubyk.Lib.Runs

set_option autoImplicit false

namespace Rubyk

open Lib

/-- `TuringSend`; `nothing` is `gSendNothing`. -/
inductive TuringSend where
  | nothing
  | value (value : Int)
  | lua (method : String)
  deriving DecidableEq, Repr

/-- How a step can be undefined. -/
inductive TuringFault where
  /-- an index outside of a table -/
  | outOfRange
  | divisionByZero
  /-- `mSend` is `NULL` -/
  | null
  deriving DecidableEq, Repr

/-- `identifier = (alpha alnum* | '.')`. -/
def isIdentifier (s : String) : Bool :=
  match s.toList with
  | [] => false
  | ['.'] => true
  | c :: cs => c.isAlpha && cs.all Char.isAlphanum

/-- An identifier of the grammar. -/
structure Identifier where
  name : String
  valid : isIdentifier name = true
  deriving DecidableEq

theorem isIdentifier_a : isIdentifier "a" = true := by decide

theorem isIdentifier_b : isIdentifier "b" = true := by decide

theorem isIdentifier_dot : isIdentifier "." = true := by decide

/-- The identifier `.`. -/
def Identifier.isDot (id : Identifier) : Bool := id.name == "."

/-- An entry: source, token, send and target. -/
structure Rule where
  source : Identifier
  token : Option Nat
  send : Option TuringSend
  target : Identifier
  deriving DecidableEq

/-- How the parser leaves a script. -/
inductive ParseEnd where
  /-- at its end; does the Lua part compile? -/
  | accepted (luaOk : Bool)
  /-- with an error, before the end of an entry whose token may have been read -/
  | rejected (token : Option Nat)
  deriving DecidableEq

/-- A script: the entries whose actions are run, and what comes then. -/
structure TuringScript where
  rules : List Rule
  parseEnd : ParseEnd
  deriving DecidableEq

/-- The script is accepted and its Lua part compiles. -/
def TuringScript.compiles (s : TuringScript) : Bool := s.parseEnd == .accepted true

/-- What the Lua function `bang` returns. -/
inductive LuaAnswer where
  | nil
  | bang
  /-- another value, an integer or not -/
  | value (token : Option Int)
  deriving DecidableEq, Repr

/-- The fields of `Turing` that the tables and their use depend on. -/
structure Turing where
  isOk : Bool
  scriptOk : Bool
  /-- `token_` -/
  token : Int
  mState : Int
  tokenTable : Nat → Nat
  mStateCount : Nat
  tokenCount : Nat
  mStateByName : String → Option Int
  mStateNames : List String
  mGotoTable : Rows Int
  mSendTable : Rows (Option TuringSend)

/-- `(size_t)i` for an `int`. -/
def sizeT (i : Int) : Nat := if 0 ≤ i then i.toNat else (2 ^ 64 + i).toNat

namespace Turing

/-! ## Building the tables -/

/-- `clear_tables`. -/
def clearTables (m : Turing) : Turing :=
  { m with
    tokenTable := fun _ => 0
    mGotoTable := [[-1]]
    mSendTable := [[none]]
    mStateByName := Function.update (fun _ => none) "-" (some 0)
    mStateNames := ["-"]
    mStateCount := 1
    tokenCount := 1 }

/-- A new machine. -/
def init (isOk : Bool) : Turing :=
  clearTables
    { isOk := isOk, scriptOk := false, token := 0, mState := 1, tokenTable := fun _ => 0
      mStateCount := 1, tokenCount := 1, mStateByName := fun _ => none, mStateNames := []
      mGotoTable := [], mSendTable := [] }

/-- `set_token`: the token's number. -/
def setToken (m : Turing) (tok : Nat) : Nat × Turing :=
  if m.tokenTable (tok % 256) = 0 then
    let m' := { m with
      tokenTable := Function.update m.tokenTable (tok % 256) m.tokenCount
      -- enlarge lookup tables (add new column); the first value is the counter (stay)
      mGotoTable := m.mGotoTable.addColumn fun i => if m.tokenCount = 1 ∧ i ≠ 0 then i else -1
      mSendTable := m.mSendTable.addColumn fun i =>
        if m.tokenCount = 1 ∧ i ≠ 0 then some .nothing else none
      tokenCount := m.tokenCount + 1 }
    (m.tokenCount, m')
  else (m.tokenTable (tok % 256), m)

/-- `get_state_id`. -/
def getStateId (m : Turing) (name : String) : Int × Turing :=
  match m.mStateByName name with
  | some id => (id, m)
  | none =>
      -- a new line in the lookup tables; default: stay
      let m' := { m with
        mStateByName := Function.update m.mStateByName name (some m.mStateCount)
        mStateNames := m.mStateNames ++ [name]
        mGotoTable := m.mGotoTable.addRow
          ((List.replicate (m.tokenCount + 1) (-1)).set 0 (m.mStateCount : Int))
        mSendTable := m.mSendTable.addRow
          ((List.replicate (m.tokenCount + 1) none).set 0 (some .nothing))
        mStateCount := m.mStateCount + 1 }
      (m.mStateCount, m')

/-- The token of an entry, if it has one. -/
def tokenOf (m : Turing) (token : Option Nat) : Nat × Turing :=
  match token with
  | none => (0, m)
  | some tok => m.setToken tok

/-- A state of an entry: `.` has no number of its own. -/
def stateOf (m : Turing) (id : Identifier) : Int × Turing :=
  if id.isDot then (0, m) else m.getStateId id.name

/-- `add_entry`. -/
def addEntry (m : Turing) (sourceState tokenId targetState : Int) (send : TuringSend) :
    Except TuringFault Turing :=
  match m.mGotoTable.write sourceState.toNat tokenId.toNat targetState,
      m.mSendTable.write sourceState.toNat tokenId.toNat (some send) with
  | some mGotoTable, some mSendTable =>
      .ok { m with mGotoTable := mGotoTable, mSendTable := mSendTable }
  | _, _ => .error .outOfRange

/-- The actions of an entry: `set_token`, `set_target` and `add_entry`. -/
def compileRule (m : Turing) (r : Rule) : Except TuringFault Turing :=
  let (tokenId, m) := m.tokenOf r.token
  let (sourceState, m) := m.stateOf r.source
  let (targetState, m) := m.stateOf r.target
  m.addEntry sourceState tokenId targetState (r.send.getD .nothing)

/-- The actions of the entries of a script. -/
def compile (m : Turing) (rules : List Rule) : Except TuringFault Turing :=
  rules.foldlM compileRule m

/-! ## The current state -/

/-- `set_state` with a number. -/
def setState (m : Turing) (id : Int) : Except TuringFault Turing :=
  if m.mStateCount - 1 = 0 then .error .divisionByZero
  else .ok { m with mState := 1 + (sizeT (id - 1) % (m.mStateCount - 1) : Nat) }

/-- `set_state` with a name, which `jump` calls. -/
def jump (m : Turing) (name : String) : Except TuringFault Turing :=
  match m.mStateByName name with
  | some id => m.setState id
  | none => .ok m

/-- The name of the current state, as `eval_script` looks it up. -/
def oldStateName (m : Turing) : Except TuringFault String :=
  if 1 < m.mStateCount then
    match m.mStateNames[sizeT m.mState % m.mStateCount]? with
    | some name => .ok name
    | none => .error .outOfRange
  else .ok ""

/-- The end of `eval_script`: the old state, if there is one with its name, or the first. -/
def restoreState (m : Turing) (oldName : String) : Except TuringFault Turing :=
  if oldName = "" then m.setState 1
  else
    match m.mStateByName oldName with
    | some id => .ok { m with mState := id }
    | none => m.setState 1

/-- `eval_script`, and `script_ok_` is what it returns. -/
def setScript (m : Turing) (script : TuringScript) : Except TuringFault Turing := do
  let oldName ← m.oldStateName
  let m ← compile { m with token := 0 }.clearTables script.rules
  match script.parseEnd with
  | .rejected token => .ok { (m.tokenOf token).2 with scriptOk := false }
  | .accepted false => .ok { m with scriptOk := false }
  | .accepted true => do
      let m ← m.restoreState oldName
      .ok { m with scriptOk := decide (1 < m.mStateCount) }

/-! ## `bang` -/

/-- `token_ = token_Table[i % 256]` for an integer; the remainder has the sign of `i`. -/
def readToken (m : Turing) : Option Int → Except TuringFault Turing
  | none => .ok m
  | some i =>
      if i.tmod 256 < 0 then .error .outOfRange
      else .ok { m with token := m.tokenTable (i.tmod 256).toNat }

def gotoAt (m : Turing) (i j : Int) : Except TuringFault Int :=
  match m.mGotoTable.read i j with
  | some state => .ok state
  | none => .error .outOfRange

def sendAt (m : Turing) (i j : Int) : Except TuringFault (Option TuringSend) :=
  match m.mSendTable.read i j with
  | some send => .ok send
  | none => .error .outOfRange

/-- The choice of `mSend`. -/
def chooseSend (m : Turing) : Except TuringFault (Option TuringSend) := do
  match ← m.sendAt m.mState m.token with
  | some send => .ok (some send)
  | none =>
      match ← m.sendAt 0 m.token with
      | some send => .ok (some send)  -- token default
      | none => m.sendAt m.mState 0  -- state default

/-- The choice of the next state. -/
def chooseState (m : Turing) : Except TuringFault Int := do
  let state ← m.gotoAt m.mState m.token
  if state = -1 then
    let state ← m.gotoAt 0 m.token
    if state = -1 then m.gotoAt m.mState 0 else .ok state
  else .ok state

/-- The part of `bang` after Lua: what is sent, and the next state. -/
def react (m : Turing) : Except TuringFault (Option TuringSend × Turing) := do
  let send ← m.chooseSend
  let state ← m.chooseState
  match send with
  | some send => .ok (some send, { m with mState := state })
  | none => .error .null

/-- `bang`; the Lua function calls `jump` and answers. -/
def bang (m : Turing) (val : Option Int) (jumps : List String) (answer : LuaAnswer) :
    Except TuringFault (Option TuringSend × Turing) :=
  if !m.isOk then .ok (none, m)
  else do
    let m ← m.readToken val
    if !m.scriptOk then .ok (none, m)
    else do
      let m ← jumps.foldlM jump m
      match answer with
      | .nil => .ok (none, m)
      | .bang => m.react
      | .value token => do
          let m ← m.readToken token
          m.react

end Turing

end Rubyk
