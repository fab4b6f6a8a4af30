/-
  Core/LuaScript.lean --- `LuaScript::eval_script`, `call_lua` and `stack_to_value` of
  `src/core/lua_script.cpp`.

  WHAT IS MODELLED.  The calls that the program makes to a script and what they leave on
  its Lua stack.  The exits for an error leave the message there, and `stack_to_value`
  takes all that is on the stack, so the next call that succeeds answers with the old
  message in front of its result.  A run of calls is clean exactly when none of them
  fails in Lua and what is pushed for each fits into the stack (`calls_clean_iff`).

  LUA.  What a chunk or a function does is not modelled: that it fails, with a message,
  or what it returns, comes with each call, with the tables and the slots of the stack
  that there are then.  `lua_pcall` pops the function and its arguments and pushes the
  results that are asked for, or the message; `luaL_loadbuffer` pushes the chunk or the
  message.  The two make room for that by themselves; what the script pushes is not
  checked (`LuaState.push`).

  OSCIT.  `reload_script` may call `eval_script`; the script is then ok when that was
  (`set_script_ok`).  Else `is_ok` is what it was, for which nothing is assumed.
-/
import Rubyk.Core.LuaLists

set_option autoImplicit false

namespace Rubyk

open Lib

variable {R V : Type}

/-- How a function that is called with `lua_pcall` ends, and the tables and the slots of the stack
then. -/
structure LuaRun (R : Type) where
  outcome : Except String (List (LuaValue Nat R))
  tables : List (TableCells R)
  size : Nat

/-- `luaL_loadbuffer` finds a mistake or compiles a chunk; and the slots of the stack then. -/
structure LuaLoad (R : Type) where
  outcome : Except String (LuaValue Nat R)
  size : Nat

/-- What Lua makes of a script: it is compiled, and the chunk is run. -/
structure Evaluation (R : Type) where
  script : String
  load : LuaLoad R
  run : LuaRun R

/-- `reload_script`. -/
inductive Reload (R : Type) where
  /-- there is no new script; `is_ok` -/
  | notNeeded (isOk : Bool)
  | evaluated (e : Evaluation R)

/-- The arguments of a `call_lua`, and what happens in it. -/
structure LuaCall (R : Type) where
  functionName : String
  reload : Reload R
  /-- the global with the name -/
  function : LuaValue Nat R
  /-- `val`, and its `lazy_json()` -/
  argument : HostValue R
  json : String
  run : LuaRun R

/-- A call that the program makes. -/
inductive HostCall (R : Type) where
  | evalScript (currentTime : R) (e : Evaluation R)
  | callLua (currentTime : R) (call : LuaCall R)

/-- The value that a call returns: `BAD_REQUEST_ERROR` with a text, or another value. -/
inductive Answer (V : Type) where
  | badRequest (text : String)
  | value (val : V)
  deriving DecidableEq, Repr

/-- `e` did not compile, or its chunk failed. -/
def Evaluation.Fails (e : Evaluation R) : Prop :=
  e.load.outcome.isOk = false ∨ e.run.outcome.isOk = false

namespace Reload

/-- The new script failed. -/
def Fails : Reload R → Prop
  | .notNeeded _ => False
  | .evaluated e => e.Fails

/-- `is_ok()` after `reload_script`. -/
def isOk : Reload R → Bool
  | .notNeeded isOk => isOk
  | .evaluated e => e.load.outcome.isOk && e.run.outcome.isOk

/-- The slots of the stack after `reload_script`. -/
def sizeAfter (size : Nat) : Reload R → Nat
  | .notNeeded _ => size
  | .evaluated e => e.run.size

/-- There is a slot for the time. -/
def Fits (size : Nat) : Reload R → Prop
  | .notNeeded _ => True
  | .evaluated _ => 0 < size

end Reload

namespace HostCall

/-- The call leads to an error in Lua. -/
def Fails : HostCall R → Prop
  | .evalScript _ e => e.Fails
  | .callLua _ call =>
      call.reload.Fails ∨ (call.reload.isOk = true ∧ call.run.outcome.isOk = false)

/-- An empty stack with `size` slots has room for what the call pushes: the time, the function
and its argument, and what is pushed to convert the result. -/
def Fits (size : Nat) : HostCall R → Prop
  | .evalScript _ _ => 0 < size
  | .callLua _ call =>
      call.reload.Fits size ∧
        (call.reload.isOk = true →
          1 + call.argument.slots ≤ call.reload.sizeAfter size ∧
            ∀ results, call.run.outcome = .ok results →
              (results.headD .nil).EndsWithin (heapOf call.run.tables) (call.run.size - 1))

end HostCall

namespace LuaState

/-- A state whose slots Lua has made, which are never fewer than are used. -/
def resized (size : Nat) (stack : LuaStack Nat R) (tables : List (TableCells R)) : LuaState R :=
  ⟨max size stack.length, stack, tables⟩

/-- `lua_setglobal` takes the value from the top. -/
def setglobal (L : LuaState R) : LuaState R := { L with stack := L.stack.pop 1 }

/-- `lua_tostring(L, -1)` on a string. -/
def tostring (L : LuaState R) : Except LuaFault String :=
  match L.stack.slot (-1) with
  | some (.string s) => .ok (cString s)
  | _ => .error .badIndex

/-- `luaL_loadbuffer`: true is for a failure. -/
def loadbuffer (L : LuaState R) (load : LuaLoad R) : Bool × LuaState R :=
  match load.outcome with
  | .ok chunk => (false, resized load.size (L.stack ++ [chunk]) L.tables)
  | .error message => (true, resized load.size (L.stack ++ [.string message]) L.tables)

/-- `lua_pcall`: true is for a failure. -/
def pcall (L : LuaState R) (nargs nresults : Nat) (run : LuaRun R) : Bool × LuaState R :=
  let below := L.stack.pop (nargs + 1)
  match run.outcome with
  | .ok results =>
      let results := (results ++ List.replicate nresults LuaValue.nil).take nresults
      (false, resized run.size (below ++ results) run.tables)
  | .error message => (true, resized run.size (below ++ [.string message]) run.tables)

end LuaState

namespace LuaScript

section Functions

variable [Zero R] [One R] [NatCast R] (o : OscitValue V R)

/-- The loop of `stack_to_value`.  Each level of a table takes a slot, so the fuel is enough. -/
def stackLoop (heap : Nat → LuaTable Nat R) (size : Nat) :
    List Nat → V → V → LuaStack Nat R → Except LuaFault (V × LuaStack Nat R)
  | [], res, _, stack => .ok (res, stack)
  | i :: is, res, tmp, stack => do
      let (found, tmp, stack) ← valueFromLua o heap size (size + 1) stack i tmp
      if found then stackLoop heap size is (o.pushBack res tmp) tmp stack
      else .ok (res, stack)

/-- `stack_to_value`. -/
def stackToValue (L : LuaState R) (startIndex : Nat) : Except LuaFault (V × LuaState R) := do
  let top := L.stack.length
  let (res, stack) ← stackLoop o (heapOf L.tables) L.size
    (List.range' startIndex (top + 1 - startIndex)) o.empty o.empty L.stack
  .ok (res, { L with stack := stack.pop top })

/-- `eval_script`. -/
def evalScript (currentTime : R) (e : Evaluation R) (L : LuaState R) :
    Except LuaFault (Answer V × LuaState R) := do
  let L ← L.push (.number currentTime)
  let L := L.setglobal
  let (status, L) := L.loadbuffer e.load
  if status then
    let text ← L.tostring
    .ok (.badRequest (text ++ "."), L)
  else
    let (status, L) := L.pcall 0 0 e.run
    if status then
      let text ← L.tostring
      .ok (.badRequest (text ++ "."), L)
    else .ok (.value (o.string e.script), L)

/-- `reload_script`. -/
def reloadScript (currentTime : R) (reload : Reload R) (L : LuaState R) :
    Except LuaFault (LuaState R) :=
  match reload with
  | .notNeeded _ => .ok L
  | .evaluated e => do
      let (_, L) ← evalScript o currentTime e L
      .ok L

/-- `call_lua`. -/
def callLua (currentTime : R) (call : LuaCall R) (L : LuaState R) :
    Except LuaFault (Answer V × LuaState R) := do
  let L ← reloadScript o currentTime call.reload L
  if !call.reload.isOk then .ok (.badRequest "Script is broken.", L)
  else
    let L ← L.push (.number currentTime)
    let L := L.setglobal
    let L ← L.push call.function
    let (pushed, L) ← pushvalue call.argument L
    if !pushed then
      .ok (.badRequest ("cannot call '" ++ call.functionName ++ "' with argument " ++ call.json ++
        " (type not yet suported in Lua).\n"), L)
    else
      let (status, L) := L.pcall 1 1 call.run
      if status then
        let text ← L.tostring
        .ok (.badRequest text, L)
      else
        let (res, L) ← stackToValue o L 1
        .ok (.value res, L)

/-- A call of the program. -/
def perform (call : HostCall R) (L : LuaState R) : Except LuaFault (Answer V × LuaState R) :=
  match call with
  | .evalScript currentTime e => evalScript o currentTime e L
  | .callLua currentTime call => callLua o currentTime call L

end Functions

/-! ## Runs of calls -/

section Runs

variable [Zero R] [One R] [NatCast R] (o : OscitValue V R)

/-- The stack of a new script is empty. -/
def start (size : Nat) (tables : List (TableCells R)) : LuaState R := ⟨size, [], tables⟩

/-- What a call leaves to the next one. -/
def afterCall (L : LuaState R) (call : HostCall R) : Except LuaFault (LuaState R) := do
  let (_, L) ← perform o call L
  .ok L

/-- `val` is what `stack_to_value` makes of the one value `v`. -/
def IsConversion (heap : Nat → LuaTable Nat R) (v : LuaValue Nat R) (val : V) : Prop :=
  ∃ size fuel found tmp, valueFromLua o heap size fuel [v] 1 o.empty = .ok (found, tmp, [v]) ∧
    val = if found then o.pushBack o.empty tmp else o.empty

/-- The answer to a call of a function that returns is the conversion of its one result. -/
def AnswersResult (call : HostCall R) (answer : Answer V) : Prop :=
  match call with
  | .evalScript _ _ => True
  | .callLua _ call =>
      ∀ results, call.reload.isOk = true → call.run.outcome = .ok results →
        ∃ val, answer = .value val ∧
          IsConversion o (heapOf call.run.tables) (results.headD .nil) val

/-- The call returns, the stack is as high as it was, and the answer is that of the call alone. -/
def Clean (L : LuaState R) (call : HostCall R) : Prop :=
  ∃ answer L', perform o call L = .ok (answer, L') ∧ L'.stack.length = L.stack.length ∧
    AnswersResult o call answer

end Runs

/-! ## What a call leaves on the stack -/

section Api

variable {L : LuaState R} {run : LuaRun R} {below args : LuaStack Nat R} {n m : Nat}

/-- A global is set by way of the stack, which must have a slot for that. -/
theorem push_setglobal (h : L.stack.length < L.size) (v : LuaValue Nat R) :
    ∃ M, L.push v = .ok M ∧ M.setglobal = L :=
  ⟨_, LuaState.push_eq h v, by simp [LuaState.setglobal]⟩

/-- The message of an error is on top. -/
theorem tostring_eq {message : String} (h : L.stack = below ++ [.string message]) :
    L.tostring = .ok (cString message) := by
  simp [LuaState.tostring, h]

theorem pop_args (hstack : L.stack = below ++ args) (hargs : args.length = n + 1) :
    L.stack.pop (n + 1) = below := by
  simp [LuaStack.pop, hstack, hargs]

/-- The message takes the place of the function and its arguments. -/
theorem pcall_error (hstack : L.stack = below ++ args) (hargs : args.length = n + 1)
    {message : String} (hrun : run.outcome = .error message) :
    L.pcall n m run =
      (true, LuaState.resized run.size (below ++ [.string message]) run.tables) := by
  simp only [LuaState.pcall, pop_args hstack hargs, hrun]

/-- The results take the place of the function and its arguments. -/
theorem pcall_ok (hstack : L.stack = below ++ args) (hargs : args.length = n + 1)
    {results : List (LuaValue Nat R)} (hrun : run.outcome = .ok results) :
    L.pcall n m run = (false, LuaState.resized run.size
      (below ++ (results ++ List.replicate m LuaValue.nil).take m) run.tables) := by
  simp only [LuaState.pcall, pop_args hstack hargs, hrun]

end Api

section Calls

variable {o : OscitValue V R} {currentTime : R} {L L' : LuaState R} {v : LuaValue Nat R}

/-- `eval_script` needs a slot, leaves the stack as it was, or the message of an error on it. -/
theorem evalScript_spec (o : OscitValue V R) (currentTime : R) (e : Evaluation R)
    (hroom : L.stack.length < L.size) :
    ∃ answer L', evalScript o currentTime e L = .ok (answer, L') ∧
      (¬ e.Fails → L'.stack = L.stack ∧ L'.size = max e.run.size L.stack.length) ∧
      (e.Fails → L'.stack.length = L.stack.length + 1) := by
  obtain ⟨M, hpush, hset⟩ := push_setglobal hroom (.number currentTime)
  simp only [evalScript, hpush, hset, ok_bind]
  cases hload : e.load.outcome with
  | error message =>
    have hmessage :
        (LuaState.resized e.load.size (L.stack ++ [.string message]) L.tables).tostring =
          .ok (cString message) := tostring_eq rfl
    refine ⟨.badRequest (cString message ++ "."),
      LuaState.resized e.load.size (L.stack ++ [.string message]) L.tables, ?_, ?_, fun _ => ?_⟩
    · simp [LuaState.loadbuffer, hload, hmessage]
    · exact fun hno => absurd (.inl (by rw [hload]; rfl)) hno
    · exact List.length_append
  | ok chunk =>
    have hstack : (LuaState.resized e.load.size (L.stack ++ [chunk]) L.tables).stack =
      L.stack ++ [chunk] := rfl
    cases hrun : e.run.outcome with
    | error message =>
      have hcall := pcall_error (n := 0) (m := 0) hstack rfl hrun
      have hmessage : (LuaState.resized e.run.size (L.stack ++ [.string message])
        e.run.tables).tostring = .ok (cString message) := tostring_eq rfl
      refine ⟨.badRequest (cString message ++ "."),
        LuaState.resized e.run.size (L.stack ++ [.string message]) e.run.tables, ?_, ?_,
        fun _ => ?_⟩
      · simp [LuaState.loadbuffer, hload, hcall, hmessage]
      · exact fun hno => absurd (.inr (by rw [hrun]; rfl)) hno
      · exact List.length_append
    | ok results =>
      have hcall := pcall_ok (n := 0) (m := 0) hstack rfl hrun
      rw [List.take_zero, List.append_nil] at hcall
      refine ⟨.value (o.string e.script), LuaState.resized e.run.size L.stack e.run.tables, ?_,
        fun _ => ⟨rfl, rfl⟩, ?_⟩
      · simp [LuaState.loadbuffer, hload, hcall]
      · rintro (hfail | hfail)
        · rw [hload] at hfail
          cases hfail
        · rw [hrun] at hfail
          cases hfail

theorem evalScript_full (o : OscitValue V R) (currentTime : R) (e : Evaluation R)
    (hfull : L.size ≤ L.stack.length) : evalScript o currentTime e L = .error .overflow := by
  rw [evalScript, LuaState.push_full hfull, error_bind]

/-- `reload_script` on an empty stack leaves it empty, or the message of an error on it. -/
theorem reloadScript_spec (o : OscitValue V R) (currentTime : R) {reload : Reload R}
    (hstack : L.stack = []) (hfits : reload.Fits L.size) :
    ∃ L', reloadScript o currentTime reload L = .ok L' ∧
      (¬ reload.Fails → L'.stack = [] ∧ L'.size = reload.sizeAfter L.size) ∧
      (reload.Fails → L'.stack.length = 1 ∧ reload.isOk = false) := by
  cases reload with
  | notNeeded isOk => exact ⟨L, rfl, fun _ => ⟨hstack, rfl⟩, False.elim⟩
  | evaluated e =>
    obtain ⟨answer, L', heval, hsame, hmore⟩ :=
      evalScript_spec o currentTime e (L := L) (by rw [hstack]; exact hfits)
    rw [hstack] at hsame hmore
    refine ⟨L', by rw [reloadScript, heval, ok_bind], fun hno => ?_, fun hfails => ?_⟩
    · exact ⟨(hsame hno).1, (hsame hno).2.trans (Nat.max_zero _)⟩
    · exact ⟨hmore hfails, Bool.and_eq_false_iff.mpr hfails⟩

theorem reloadScript_full (o : OscitValue V R) (currentTime : R) {reload : Reload R}
    (hstack : L.stack = []) (hfew : ¬ reload.Fits L.size) :
    reloadScript o currentTime reload L = .error .overflow := by
  cases reload with
  | notNeeded isOk => exact absurd trivial hfew
  | evaluated e =>
    have hfull : L.size ≤ L.stack.length := by
      rw [hstack]
      exact Nat.le_of_not_lt hfew
    rw [reloadScript, evalScript_full o currentTime e hfull, error_bind]

variable [Zero R] [One R]

/-- `stack_to_value` on a stack with one value. -/
theorem stackToValue_single (o : OscitValue V R) (hstack : L.stack = [v]) :
    (v.EndsWithin (heapOf L.tables) (L.size - 1) →
      ∃ val L', stackToValue o L 1 = .ok (val, L') ∧ L'.stack = [] ∧
        IsConversion o (heapOf L.tables) v val) ∧
    (¬ v.EndsWithin (heapOf L.tables) (L.size - 1) →
      stackToValue o L 1 = .error .overflow) := by
  have hslot : LuaStack.slot [v] 1 = some v := rfl
  have hkeeps := valueFromLua_keepsStack o (heapOf L.tables) L.size (L.size + 1) hslot o.empty
  have hsub : L.size - [v].length = L.size - 1 := rfl
  cases hrun : valueFromLua o (heapOf L.tables) L.size (L.size + 1) [v] 1 o.empty with
  | error fault =>
    rw [hrun] at hkeeps
    obtain ⟨rfl, hno⟩ := hkeeps (by omega)
    refine ⟨fun hends => absurd hends hno, fun _ => ?_⟩
    simp [stackToValue, stackLoop, hstack, hrun]
  | ok out =>
    obtain ⟨found, tmp, stack⟩ := out
    rw [hrun] at hkeeps
    obtain ⟨rfl, hends⟩ := hkeeps
    refine ⟨fun _ => ?_, fun hno => absurd hends hno⟩
    refine ⟨if found then o.pushBack o.empty tmp else o.empty, { L with stack := [] }, ?_, rfl,
      L.size, L.size + 1, found, tmp, hrun, rfl⟩
    cases found <;> simp [stackToValue, stackLoop, hstack, hrun, LuaStack.pop]

variable [NatCast R] {call : LuaCall R} {M : LuaState R}

omit [Zero R] [One R] in
/-- The function and its argument are on an empty stack that has room for them. -/
theorem push_call (hempty : M.stack = []) (hfits : 1 + call.argument.slots ≤ M.size)
    (currentTime : R) :
    ∃ M₁ M₂ w tables, M.push (.number currentTime) = .ok M₁ ∧ M₁.setglobal = M ∧
      M.push call.function = .ok M₂ ∧
      pushvalue call.argument M₂ = .ok (true, ⟨M.size, [] ++ [call.function, w], tables⟩) := by
  have hroom : M.stack.length < M.size := by
    rw [hempty, List.length_nil]
    omega
  obtain ⟨M₁, hpush, hset⟩ := push_setglobal hroom (.number currentTime)
  obtain ⟨w, tables, hvalue, -⟩ :=
    pushvalue_holds call.argument { M with stack := M.stack ++ [call.function] } (by
      rw [hempty]
      exact hfits)
  refine ⟨M₁, _, w, tables, hpush, hset, LuaState.push_eq hroom _, ?_⟩
  rw [hvalue, hempty]
  rfl

/-- The argument does not fit. -/
theorem callLua_full (hreload : reloadScript o currentTime call.reload L = .ok M)
    (hok : call.reload.isOk = true) (hempty : M.stack = [])
    (hfew : M.size < 1 + call.argument.slots) :
    callLua o currentTime call L = .error .overflow := by
  simp only [callLua, hreload, ok_bind, hok, Bool.not_true, Bool.false_eq_true, if_false]
  rcases Nat.lt_or_ge M.stack.length M.size with hroom | hfull
  · obtain ⟨M₁, hpush, hset⟩ := push_setglobal hroom (.number currentTime)
    have hover := pushvalue_overflow call.argument
      { M with stack := M.stack ++ [call.function] } (by rw [hempty]; exact hfew)
    simp only [hpush, hset, LuaState.push_eq hroom, ok_bind, hover, error_bind]
  · rw [LuaState.push_full hfull, error_bind]

/-- A function that fails leaves its message. -/
theorem callLua_fails (hreload : reloadScript o currentTime call.reload L = .ok M)
    (hok : call.reload.isOk = true) (hempty : M.stack = [])
    (hfits : 1 + call.argument.slots ≤ M.size) {message : String}
    (hrun : call.run.outcome = .error message) :
    ∃ answer L', callLua o currentTime call L = .ok (answer, L') ∧ L'.stack.length = 1 := by
  obtain ⟨M₁, M₂, w, tables, hpush, hset, hfunction, hvalue⟩ :=
    push_call hempty hfits currentTime
  have hcall := pcall_error (L := ⟨M.size, [] ++ [call.function, w], tables⟩) (n := 1) (m := 1)
    rfl rfl hrun
  have hmessage : (LuaState.resized call.run.size ([] ++ [.string message])
    call.run.tables).tostring = .ok (cString message) := tostring_eq rfl
  refine ⟨.badRequest (cString message),
    LuaState.resized call.run.size [.string message] call.run.tables, ?_, rfl⟩
  simp only [callLua, hreload, ok_bind, hok, Bool.not_true, Bool.false_eq_true, if_false, hpush,
    hset, hfunction, hvalue, hcall, if_true, hmessage]
  rfl

/-- A function that returns leaves its one result for `stack_to_value`. -/
theorem callLua_returns (hreload : reloadScript o currentTime call.reload L = .ok M)
    (hok : call.reload.isOk = true) (hempty : M.stack = [])
    (hfits : 1 + call.argument.slots ≤ M.size) {results : List (LuaValue Nat R)}
    (hrun : call.run.outcome = .ok results) :
    ∃ N : LuaState R, N.stack = [results.headD .nil] ∧ N.tables = call.run.tables ∧
      N.size - 1 = call.run.size - 1 ∧
      callLua o currentTime call L =
        stackToValue o N 1 >>= fun out => .ok (.value out.1, out.2) := by
  obtain ⟨M₁, M₂, w, tables, hpush, hset, hfunction, hvalue⟩ :=
    push_call hempty hfits currentTime
  have hone : [] ++ (results ++ List.replicate 1 LuaValue.nil).take 1 = [results.headD .nil] := by
    cases results <;> rfl
  have hcall := pcall_ok (L := ⟨M.size, [] ++ [call.function, w], tables⟩) (n := 1) (m := 1)
    rfl rfl hrun
  rw [hone] at hcall
  refine ⟨LuaState.resized call.run.size [results.headD .nil] call.run.tables, rfl, rfl, ?_, ?_⟩
  · have hmax : max call.run.size 1 - 1 = call.run.size - 1 := by omega
    exact hmax
  · simp only [callLua, hreload, ok_bind, hok, Bool.not_true, Bool.false_eq_true, if_false, hpush,
      hset, hfunction, hvalue, hcall]

/-- On an empty stack `eval_script` is clean when it does not fail and there is a slot for the
time. -/
theorem clean_evalScript_iff (hstack : L.stack = []) (e : Evaluation R) :
    Clean o L (.evalScript currentTime e) ↔ ¬ e.Fails ∧ 0 < L.size := by
  rcases Nat.eq_zero_or_pos L.size with hnone | hroom
  · have hfull := evalScript_full o currentTime e (L := L) (by rw [hnone]; exact Nat.zero_le _)
    refine iff_of_false ?_ fun h => (Nat.ne_of_gt h.2) hnone
    rintro ⟨answer, L', hok, -⟩
    cases hfull.symm.trans hok
  · obtain ⟨answer, L', heval, hsame, hmore⟩ :=
      evalScript_spec o currentTime e (L := L) (by rw [hstack]; exact hroom)
    constructor
    · rintro ⟨answer', M, hok, hheight, -⟩
      obtain ⟨-, rfl⟩ := Prod.mk.inj (Except.ok.inj (heval.symm.trans hok))
      refine ⟨fun hfails => ?_, hroom⟩
      have hhigher := hmore hfails
      omega
    · rintro ⟨hno, -⟩
      exact ⟨answer, L', heval, congrArg List.length (hsame hno).1, trivial⟩

omit [Zero R] [One R] [NatCast R] in
/-- A script that is ok did not fail to be reloaded. -/
theorem not_fails_of_isOk {reload : Reload R} (h : reload.isOk = true) : ¬ reload.Fails := by
  cases reload with
  | notNeeded isOk => exact id
  | evaluated e =>
    intro hfails
    have hbroken : (e.load.outcome.isOk && e.run.outcome.isOk) = false :=
      Bool.and_eq_false_iff.mpr hfails
    rw [Reload.isOk, hbroken] at h
    cases h

/-- On an empty stack `call_lua` is clean when nothing fails in Lua and all that is pushed fits,
and only then. -/
theorem clean_callLua_iff (hstack : L.stack = []) :
    Clean o L (.callLua currentTime call) ↔
      ¬ (HostCall.callLua currentTime call).Fails ∧
        (HostCall.callLua currentTime call).Fits L.size := by
  -- a fault is not clean
  have hfault {fault : LuaFault} (hover : callLua o currentTime call L = .error fault) :
      ¬ Clean o L (.callLua currentTime call) := by
    rintro ⟨answer, L', hok, -⟩
    cases hover.symm.trans hok
  by_cases hfits : call.reload.Fits L.size
  · obtain ⟨M, hreload, hsame, hmore⟩ := reloadScript_spec o currentTime hstack hfits
    cases hok : call.reload.isOk with
    | false =>
      have hbroken : callLua o currentTime call L = .ok (.badRequest "Script is broken.", M) := by
        simp only [callLua, hreload, ok_bind, hok, Bool.not_false, if_true]
      constructor
      · rintro ⟨answer, L', hcall, hheight, -⟩
        obtain ⟨-, rfl⟩ := Prod.mk.inj (Except.ok.inj (hbroken.symm.trans hcall))
        refine ⟨?_, hfits, fun hyes => absurd (hok.symm.trans hyes) Bool.false_ne_true⟩
        rintro (hfails | ⟨hyes, -⟩)
        · rw [(hmore hfails).1, hstack] at hheight
          cases hheight
        · cases hok.symm.trans hyes
      · rintro ⟨hno, -⟩
        refine ⟨_, M, hbroken, ?_, fun results hyes => ?_⟩
        · rw [(hsame fun hfails => hno (.inl hfails)).1, hstack]
        · cases hok.symm.trans hyes
    | true =>
      have hreloaded := not_fails_of_isOk hok
      obtain ⟨hempty, hsize⟩ := hsame hreloaded
      rcases Nat.lt_or_ge M.size (1 + call.argument.slots) with hfew | hroom
      · refine iff_of_false (hfault (callLua_full hreload hok hempty hfew)) ?_
        rintro ⟨-, -, hall⟩
        have henough := (hall hok).1
        omega
      · cases hrun : call.run.outcome with
        | error message =>
          obtain ⟨answer, L', hcall, hone⟩ := callLua_fails hreload hok hempty hroom hrun
          refine iff_of_false ?_ fun h => h.1 (.inr ⟨hok, by rw [hrun]; rfl⟩)
          rintro ⟨answer', L'', hcall', hheight, -⟩
          obtain ⟨-, rfl⟩ := Prod.mk.inj (Except.ok.inj (hcall.symm.trans hcall'))
          rw [hone, hstack] at hheight
          cases hheight
        | ok results =>
          obtain ⟨N, hN, htables, hfree, hcall⟩ := callLua_returns hreload hok hempty hroom hrun
          obtain ⟨hends, hover⟩ := stackToValue_single o hN
          rw [htables, hfree] at hends hover
          have hreturns : ¬ (HostCall.callLua currentTime call).Fails := by
            rintro (hfails | ⟨-, hfails⟩)
            · exact hreloaded hfails
            · rw [hrun] at hfails
              cases hfails
          by_cases hfit : (results.headD .nil).EndsWithin (heapOf call.run.tables)
              (call.run.size - 1)
          · obtain ⟨val, L', hvalue, hnone, hconversion⟩ := hends hfit
            rw [hvalue, ok_bind] at hcall
            refine iff_of_true ⟨_, L', hcall, by rw [hnone, hstack], fun results' _ hrun' => ?_⟩
              ⟨hreturns, hfits, fun _ => ⟨hsize ▸ hroom, fun results' hrun' => ?_⟩⟩
            · obtain rfl := Except.ok.inj (hrun.symm.trans hrun')
              exact ⟨val, rfl, hconversion⟩
            · obtain rfl := Except.ok.inj (hrun.symm.trans hrun')
              exact hfit
          · rw [hover hfit, error_bind] at hcall
            exact iff_of_false (hfault hcall) fun h => hfit ((h.2.2 hok).2 results hrun)
  · have hover : callLua o currentTime call L = .error .overflow := by
      rw [callLua, reloadScript_full o currentTime hstack hfits, error_bind]
    exact iff_of_false (hfault hover) fun h => hfits h.2.1

theorem clean_iff (hstack : L.stack = []) (call : HostCall R) :
    Clean o L call ↔ ¬ call.Fails ∧ call.Fits L.size := by
  cases call with
  | evalScript currentTime e => exact clean_evalScript_iff hstack e
  | callLua currentTime call => exact clean_callLua_iff hstack

/-- A clean call leaves an empty stack empty. -/
theorem Clean.empty {call : HostCall R} (hclean : Clean o L call) (hstack : L.stack = [])
    (h : afterCall o L call = .ok L') : L'.stack = [] := by
  obtain ⟨answer, M, hperform, hheight, -⟩ := hclean
  rw [afterCall, hperform, ok_bind] at h
  obtain rfl := Except.ok.inj h
  rw [hstack] at hheight
  exact List.length_eq_zero_iff.mp hheight

end Calls

/-! ## A message that is left -/

/-- `f(1)` returns 2. -/
def returnsTwo : LuaCall Int :=
  ⟨"f", .notNeeded true, .other "function", .real 1, "1", ⟨.ok [.number 2], [], 44⟩⟩

/-- `g(1)`, for which there is no function. -/
def callsNil : LuaCall Int :=
  ⟨"g", .notNeeded true, .nil, .real 1, "1", ⟨.error "attempt to call a nil value", [], 44⟩⟩

end LuaScript

end Rubyk
