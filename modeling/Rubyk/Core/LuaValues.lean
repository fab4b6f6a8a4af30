/-
  Core/LuaValues.lean --- `LuaScript::value_from_lua` and `list_from_lua` of
  `src/core/lua_script.cpp`.

  WHAT IS MODELLED.  The two functions and the calls of the Lua API that they make.
  Scripts hand over tables, and the functions call each other for the elements of a
  table without a look at where they come from.  Each level leaves a value on the Lua
  stack, so what is nested deeper than the stack has free slots ends behind it, and a
  table that can be reached from itself always does (`value_from_lua_ends_iff`).

  THE STACK.  It has its bottom first, and its array has `size` slots: 44 above the base
  of a new state (`stack_init`).  Lua makes it larger when it calls a function, and
  smaller in a collection, but for nothing that the API pushes: `api_incr_top` checks
  nothing, and the script never calls `lua_checkstack`.  So `size` is what there is when
  a value is converted.  A push past the last slot is the fault `overflow`.

  LUA.  A table has its elements `1 .. #t` and its other fields; tables have no
  metatable.  `fuel` bounds how deep tables are nested, and `unfinished` says that it
  was too little, which with more fuel than free slots never happens.

  OSCIT.  `Value` is a parameter: of its functions only those that build a value are
  called.
-/
import Mathlib.Algebra.Ring.Int.Defs
import Mathlib.Data.List.Basic
import Rubyk.Lib.Descent
import Rubyk.Lib.Runs

set_option autoImplicit false

namespace Rubyk

open Lib

variable {T R V : Type}

/-- The types of Lua values; what a table is is in the heap. -/
inductive LuaValue (T R : Type) where
  | nil
  | number (r : R)
  | string (s : String)
  | boolean (b : Bool)
  | table (t : T)
  /-- functions, user data, threads -/
  | other (typename : String)
  deriving DecidableEq, Repr

/-- A table. -/
structure LuaTable (T R : Type) where
  /-- the elements `1 .. #t` -/
  elements : List (LuaValue T R)
  field : String → LuaValue T R

/-- The functions of `Value` that are used. -/
structure OscitValue (V R : Type) where
  nil : V
  empty : V
  real : R → V
  string : String → V
  pushBack : V → V → V

/-- How a call can go wrong. -/
inductive LuaFault where
  /-- there is nothing at the index, or not what is asked for -/
  | badIndex
  /-- something is written behind the last slot of the stack -/
  | overflow
  /-- too little fuel -/
  | unfinished
  deriving DecidableEq, Repr

/-- The stack, bottom first. -/
abbrev LuaStack (T R : Type) := List (LuaValue T R)

namespace LuaStack

/-- The index from the bottom: `1` is the bottom, and `-1` is the top. -/
def absIndex (stack : LuaStack T R) (index : Int) : Int :=
  if index < 0 then stack.length + index + 1 else index

/-- What is at the index. -/
def slot (stack : LuaStack T R) (index : Int) : Option (LuaValue T R) :=
  if 0 < stack.absIndex index then stack[(stack.absIndex index - 1).toNat]? else none

/-- A value is pushed on a stack with `size` slots. -/
def push (size : Nat) (stack : LuaStack T R) (v : LuaValue T R) :
    Except LuaFault (LuaStack T R) :=
  if stack.length < size then .ok (stack ++ [v]) else .error .overflow

/-- The table at the index. -/
def tableAt (heap : T → LuaTable T R) (stack : LuaStack T R) (index : Int) :
    Except LuaFault (LuaTable T R) :=
  match stack.slot index with
  | some (.table t) => .ok (heap t)
  | _ => .error .badIndex

/-- `lua_gettable` with a string for a key, which is taken from the top. -/
def gettable (heap : T → LuaTable T R) (stack : LuaStack T R) (index : Int) :
    Except LuaFault (LuaStack T R) := do
  let table ← stack.tableAt heap index
  match stack.getLast? with
  | some (.string key) => .ok (stack.dropLast ++ [table.field key])
  | _ => .error .badIndex

/-- `lua_rawgeti`. -/
def rawgeti (heap : T → LuaTable T R) (size : Nat) (stack : LuaStack T R) (index : Int)
    (i : Nat) : Except LuaFault (LuaStack T R) := do
  let table ← stack.tableAt heap index
  stack.push size ((table.elements[i - 1]?).getD .nil)

/-- `lua_pop`. -/
def pop (stack : LuaStack T R) (n : Nat) : LuaStack T R := stack.take (stack.length - n)

end LuaStack

/-- `lua_isstring`. -/
def LuaValue.isString : LuaValue T R → Bool
  | .string _ => true
  | .number _ => true
  | _ => false

/-- What `const char*` shows of a string. -/
def cString (s : String) : String := String.ofList (s.toList.takeWhile (· ≠ '\x00'))

namespace LuaScript

section Functions

variable [Zero R] [One R] (o : OscitValue V R) (heap : T → LuaTable T R) (size : Nat)

/-- The loop of `list_from_lua`; `convert` is `value_from_lua`. -/
def listLoop (convert : LuaStack T R → Int → V → Except LuaFault (Bool × V × LuaStack T R))
    (index : Int) : List Nat → V → V → LuaStack T R → Except LuaFault (V × LuaStack T R)
  | [], val, _, stack => .ok (val, stack)
  | i :: is, val, tmp, stack => do
      let stack ← stack.rawgeti heap size index i
      let (found, tmp, stack) ← convert stack (-1) tmp
      let val := if found then o.pushBack val tmp else o.pushBack val o.nil
      listLoop convert index is val tmp (stack.pop 1)

/-- `list_from_lua`; it answers true. -/
def listFromLua (convert : LuaStack T R → Int → V → Except LuaFault (Bool × V × LuaStack T R))
    (stack : LuaStack T R) (index : Int) (val : V) :
    Except LuaFault (Bool × V × LuaStack T R) := do
  let table ← stack.tableAt heap index
  let (val, stack) ← listLoop o heap size convert index
    (List.range' 1 table.elements.length) val o.empty stack
  .ok (true, val, stack)

/-- `value_from_lua`; `res` is the value before the call, and the new one is returned. -/
def valueFromLua (fuel : Nat) (stack : LuaStack T R) (index : Int) (res : V) :
    Except LuaFault (Bool × V × LuaStack T R) :=
  let top : Int := stack.length
  let index := stack.absIndex index
  if top < index then .ok (false, res, stack)
  else
    match stack.slot index with
    | none => .error .badIndex
    | some .nil => .ok (true, o.nil, stack)
    | some (.number r) => .ok (true, o.real r, stack)
    | some (.string s) => .ok (true, o.string (cString s), stack)
    | some (.boolean b) => .ok (true, o.real (if b then 1 else 0), stack)
    | some (.table _) =>
        match fuel with
        | 0 => .error .unfinished
        | fuel + 1 => do
            let stack ← stack.push size (.string "type")
            let stack ← stack.gettable heap index
            match stack.getLast? with
            | none => .error .badIndex
            | some type =>
                let stack := stack.pop 1
                -- a midi message
                if type.isString then .ok (true, o.nil, stack)
                else
                  listFromLua o heap size
                    (fun stack index res => valueFromLua fuel stack index res) stack index o.empty
    | some (.other _) => .ok (false, res, stack)

end Functions

end LuaScript

/-! ## The stack -/

namespace LuaStack

variable {heap : T → LuaTable T R} {stack : LuaStack T R} {index : Int} {v w : LuaValue T R}
  {t : T} {p size : Nat}

theorem push_eq (h : stack.length < size) (v : LuaValue T R) :
    stack.push size v = .ok (stack ++ [v]) := if_pos h

theorem push_full (h : size ≤ stack.length) (v : LuaValue T R) :
    stack.push size v = .error .overflow := if_neg (Nat.not_lt.mpr h)

theorem slot_succ (stack : LuaStack T R) (p : Nat) : stack.slot (p + 1) = stack[p]? := by
  have hnot : ¬ ((p : Int) + 1 < 0) := by omega
  have hpos : 0 < (p : Int) + 1 := by omega
  simp [slot, absIndex, hnot, hpos]

/-- A valid index, from the bottom. -/
theorem absIndex_of_slot (h : stack.slot index = some v) :
    ∃ p : Nat, stack.absIndex index = p + 1 ∧ p < stack.length ∧ stack[p]? = some v := by
  unfold slot at h
  split at h
  · rename_i hpos
    refine ⟨(stack.absIndex index - 1).toNat, by omega, ?_, h⟩
    exact (List.getElem?_eq_some_iff.mp h).1
  · cases h

theorem slot_absIndex (h : stack.slot index = some v) :
    stack.slot (stack.absIndex index) = some v ∧ ¬ (stack.length : Int) < stack.absIndex index := by
  obtain ⟨p, hp, hlt, hv⟩ := absIndex_of_slot h
  rw [hp, slot_succ]
  exact ⟨hv, by omega⟩

/-- The top. -/
@[simp] theorem slot_top (stack : LuaStack T R) (v : LuaValue T R) :
    slot (stack ++ [v]) (-1) = some v := by
  have habs : absIndex (stack ++ [v]) (-1) = stack.length + 1 := by
    simp [absIndex]
  simp [slot, habs]

/-- What is pushed changes nothing below it. -/
theorem getElem?_push (h : stack[p]? = some v) (w : LuaValue T R) :
    (stack ++ [w])[p]? = some v := by
  have hlt := (List.getElem?_eq_some_iff.mp h).1
  rw [List.getElem?_append_left hlt, h]

@[simp] theorem pop_push (stack : LuaStack T R) (v : LuaValue T R) :
    pop (stack ++ [v]) 1 = stack := by
  simp [pop]

theorem tableAt_eq (h : stack[p]? = some (.table t)) :
    stack.tableAt heap (p + 1) = .ok (heap t) := by
  simp [tableAt, slot_succ, h]

theorem gettable_eq (h : stack[p]? = some (.table t)) (key : String) :
    gettable heap (stack ++ [.string key]) (p + 1) = .ok (stack ++ [(heap t).field key]) := by
  have hpush := getElem?_push h (.string key)
  simp [gettable, tableAt_eq hpush]

theorem rawgeti_eq (h : stack[p]? = some (.table t)) (hroom : stack.length < size) (i : Nat) :
    stack.rawgeti heap size (p + 1) i =
      .ok (stack ++ [((heap t).elements[i - 1]?).getD .nil]) := by
  simp [rawgeti, tableAt_eq h, push_eq hroom]

end LuaStack

/-! ## The tables that are visited -/

/-- A table with a string or a number in the field `type` is not looked into. -/
def LuaTable.isMessage (table : LuaTable T R) : Bool := (table.field "type").isString

/-- `list_from_lua` of the table `t` looks into the table `u`. -/
def Visits (heap : T → LuaTable T R) (t u : T) : Prop :=
  (heap t).isMessage = false ∧ .table u ∈ (heap t).elements

/-- The tables that are visited for the value are nested at most `depth` deep. -/
def LuaValue.EndsWithin (heap : T → LuaTable T R) (depth : Nat) : LuaValue T R → Prop
  | .table t => Lib.EndsWithin (Visits heap) depth t
  | _ => True

namespace LuaScript

variable {α : Type} {o : OscitValue V R} {heap : T → LuaTable T R} {size : Nat}
  {convert : LuaStack T R → Int → V → Except LuaFault (Bool × V × LuaStack T R)}
  {stack : LuaStack T R} {index : Int} {v : LuaValue T R} {t : T} {p fuel : Nat}
  {enough fits fits' : Prop}

/-- A computation leaves the stack as it was if all that it visits fits into it.  Else it comes
to write behind the stack, or runs out of fuel first, where that is not enough. -/
def KeepsStack (stackOf : α → LuaStack T R) (stack : LuaStack T R) (enough fits : Prop) :
    Except LuaFault α → Prop
  | .ok x => stackOf x = stack ∧ fits
  | .error fault => enough → fault = .overflow ∧ ¬ fits

theorem KeepsStack.congr {stackOf : α → LuaStack T R} {r : Except LuaFault α}
    (h : KeepsStack stackOf stack enough fits r) (hiff : fits ↔ fits') :
    KeepsStack stackOf stack enough fits' r :=
  propext hiff ▸ h

/-- The element that an iteration of the loop converts. -/
theorem element_mem {elements : List (LuaValue T R)} {i : Nat} (hi : 1 ≤ i)
    (hsize : i ≤ elements.length) : (elements[i - 1]?).getD .nil ∈ elements := by
  have hlt : i - 1 < elements.length := by omega
  simp [List.getElem?_eq_getElem hlt]

/-- The loop ends at the latest with the first element that does not fit. -/
theorem listLoop_keepsStack (hslot : stack[p]? = some (.table t)) (hroom : stack.length < size)
    {depth : Nat} {is : List Nat}
    (his : ∀ i ∈ is, ∀ res, KeepsStack (fun out => out.2.2)
      (stack ++ [((heap t).elements[i - 1]?).getD .nil]) enough
      ((((heap t).elements[i - 1]?).getD .nil).EndsWithin heap depth)
      (convert (stack ++ [((heap t).elements[i - 1]?).getD .nil]) (-1) res)) (val tmp : V) :
    KeepsStack Prod.snd stack enough
      (∀ i ∈ is, (((heap t).elements[i - 1]?).getD .nil).EndsWithin heap depth)
      (listLoop o heap size convert (p + 1) is val tmp stack) := by
  induction is generalizing val tmp with
  | nil => exact ⟨rfl, fun i hi => absurd hi List.not_mem_nil⟩
  | cons i is ih =>
    have hfirst := his i List.mem_cons_self tmp
    simp only [listLoop, LuaStack.rawgeti_eq hslot hroom, ok_bind]
    cases hconvert : convert (stack ++ [((heap t).elements[i - 1]?).getD .nil]) (-1) tmp with
    | error fault =>
      rw [hconvert] at hfirst
      intro henough
      obtain ⟨hfault, hno⟩ := hfirst henough
      exact ⟨hfault, fun hall => hno (hall i List.mem_cons_self)⟩
    | ok out =>
      obtain ⟨found, tmp', stack'⟩ := out
      rw [hconvert] at hfirst
      obtain ⟨rfl, hfits⟩ := hfirst
      simp only [ok_bind, LuaStack.pop_push]
      refine (ih (fun j hj => his j (List.mem_cons_of_mem i hj)) _ tmp').congr ?_
      rw [List.forall_mem_cons]
      exact (and_iff_right hfits).symm

variable [Zero R] [One R]

/-- What is not a table is converted without any other call. -/
theorem valueFromLua_leaf (o : OscitValue V R) (heap : T → LuaTable T R) (size fuel : Nat)
    (hslot : stack.slot index = some v) (hv : ∀ t, v ≠ .table t) (res : V) :
    ∃ found res', valueFromLua o heap size fuel stack index res = .ok (found, res', stack) := by
  obtain ⟨hslot', hle⟩ := LuaStack.slot_absIndex hslot
  unfold valueFromLua
  simp only [if_neg hle, hslot']
  cases v with
  | table t => exact absurd rfl (hv t)
  | _ => exact ⟨_, _, rfl⟩

/-- For a table, the field `type` is looked at, and then the elements. -/
theorem valueFromLua_table (o : OscitValue V R) (heap : T → LuaTable T R) (fuel : Nat)
    (hslot : stack.slot index = some (.table t)) (hroom : stack.length < size) (res : V) :
    ∃ p : Nat, stack[p]? = some (.table t) ∧
      valueFromLua o heap size (fuel + 1) stack index res =
        if (heap t).isMessage then .ok (true, o.nil, stack)
        else listFromLua o heap size (valueFromLua o heap size fuel) stack (p + 1) o.empty := by
  obtain ⟨hslot', hle⟩ := LuaStack.slot_absIndex hslot
  obtain ⟨p, hp, -, hget⟩ := LuaStack.absIndex_of_slot hslot
  rw [hp] at hslot' hle
  refine ⟨p, hget, ?_⟩
  rw [valueFromLua]
  simp [hp, hle, hslot', LuaStack.push_eq hroom, LuaStack.gettable_eq hget, LuaTable.isMessage]
  rfl

/-- For the key of the field `type` there must be a slot. -/
theorem valueFromLua_full (o : OscitValue V R) (heap : T → LuaTable T R) (fuel : Nat)
    (hslot : stack.slot index = some (.table t)) (hfull : size ≤ stack.length) (res : V) :
    valueFromLua o heap size (fuel + 1) stack index res = .error .overflow := by
  obtain ⟨hslot', hle⟩ := LuaStack.slot_absIndex hslot
  rw [valueFromLua]
  simp [hle, hslot', LuaStack.push_full hfull]

omit [Zero R] [One R] in
/-- A table is visited when its elements fit into what is left of the stack. -/
theorem listFromLua_keepsStack (hslot : stack[p]? = some (.table t))
    (hroom : stack.length < size) (hmessage : (heap t).isMessage = false) {depth : Nat}
    (helements : ∀ e ∈ (heap t).elements, ∀ res, KeepsStack (fun out => out.2.2) (stack ++ [e])
      enough (e.EndsWithin heap depth) (convert (stack ++ [e]) (-1) res)) (val : V) :
    KeepsStack (fun out => out.2.2) stack enough (Lib.EndsWithin (Visits heap) (depth + 1) t)
      (listFromLua o heap size convert stack (p + 1) val) := by
  have hindex : ∀ i ∈ List.range' 1 (heap t).elements.length,
      ((heap t).elements[i - 1]?).getD .nil ∈ (heap t).elements := by
    intro i hi
    obtain ⟨hpos, hlt⟩ := List.mem_range'_1.mp hi
    exact element_mem hpos (by omega)
  have hloop := listLoop_keepsStack (o := o) hslot hroom
    (fun i hi => helements _ (hindex i hi)) val o.empty
  have hfits : (∀ i ∈ List.range' 1 (heap t).elements.length,
      (((heap t).elements[i - 1]?).getD .nil).EndsWithin heap depth) ↔
        Lib.EndsWithin (Visits heap) (depth + 1) t := by
    constructor
    · rintro hall u ⟨-, hu⟩
      obtain ⟨k, hk, hget⟩ := List.getElem_of_mem hu
      have hend := hall (k + 1) (List.mem_range'_1.mpr ⟨by omega, by omega⟩)
      rwa [Nat.add_sub_cancel, List.getElem?_eq_getElem hk, Option.getD_some, hget] at hend
    · intro hends i hi
      have hmem := hindex i hi
      cases he : ((heap t).elements[i - 1]?).getD .nil with
      | table u => exact hends u ⟨hmessage, he ▸ hmem⟩
      | _ => trivial
  replace hloop := hloop.congr hfits
  simp only [listFromLua, LuaStack.tableAt_eq hslot, ok_bind]
  cases hrun : listLoop o heap size convert (p + 1)
      (List.range' 1 (heap t).elements.length) val o.empty stack with
  | error fault =>
    rw [hrun] at hloop
    exact hloop
  | ok out =>
    rw [hrun] at hloop
    exact hloop

/-- A conversion ends with the stack as it was when the tables it visits are nested at most as
deep as there are free slots, and else comes to write behind the stack. -/
theorem valueFromLua_keepsStack (o : OscitValue V R) (heap : T → LuaTable T R) (size fuel : Nat)
    (hslot : stack.slot index = some v) (res : V) :
    KeepsStack (fun out => out.2.2) stack (size - stack.length < fuel)
      (v.EndsWithin heap (size - stack.length))
      (valueFromLua o heap size fuel stack index res) := by
  have hleaf {fuel : Nat} {stack : LuaStack T R} {index : Int} {v : LuaValue T R}
      (hslot : stack.slot index = some v) (hv : ∀ t, v ≠ .table t) (res : V) :
      KeepsStack (fun out => out.2.2) stack (size - stack.length < fuel)
        (v.EndsWithin heap (size - stack.length))
        (valueFromLua o heap size fuel stack index res) := by
    obtain ⟨found, res', hok⟩ := valueFromLua_leaf o heap size fuel hslot hv res
    rw [hok]
    cases v with
    | table t => exact absurd rfl (hv t)
    | _ => exact ⟨rfl, trivial⟩
  induction fuel generalizing stack index v res with
  | zero =>
    cases v with
    | table t =>
      obtain ⟨hslot', hle⟩ := LuaStack.slot_absIndex hslot
      unfold valueFromLua
      simp only [if_neg hle, hslot']
      exact fun henough => absurd henough (Nat.not_lt_zero _)
    | _ => exact hleaf hslot (by simp) res
  | succ fuel ih =>
    cases v with
    | table t =>
      rcases Nat.lt_or_ge stack.length size with hroom | hfull
      · obtain ⟨p, hget, heq⟩ := valueFromLua_table o heap fuel hslot hroom res
        have hfree : size - stack.length = size - (stack.length + 1) + 1 := by omega
        rw [heq, hfree]
        cases hmessage : (heap t).isMessage with
        | true =>
          refine ⟨rfl, fun u hu => ?_⟩
          have hnot := hu.1
          rw [hmessage] at hnot
          cases hnot
        | false =>
          refine listFromLua_keepsStack hget hroom hmessage (fun e _ res => ?_) o.empty
          have helement := ih (LuaStack.slot_top stack e) res
          rw [List.length_append, List.length_singleton] at helement
          simpa only [Nat.add_lt_add_iff_right] using helement
      · rw [valueFromLua_full o heap fuel hslot hfull, Nat.sub_eq_zero_of_le hfull]
        exact fun _ => ⟨rfl, id⟩
    | _ => exact hleaf hslot (by simp) res

/-! ## When a conversion ends -/

/-- The value is a table, and from it the tables that are visited lead to one that is visited
again for itself. -/
def VisitsCycle (heap : T → LuaTable T R) (v : LuaValue T R) : Prop :=
  ∃ t u, v = .table t ∧ Relation.ReflTransGen (Visits heap) t u ∧
    Relation.TransGen (Visits heap) u u

omit [Zero R] [One R] in
/-- On a finite heap there is a depth at which the value ends if and only if it does not come to
a table that is visited again for itself.  Such a table fits into no stack. -/
theorem exists_endsWithin_iff {n : Nat} {heap : Fin n → LuaTable (Fin n) R}
    {v : LuaValue (Fin n) R} : (∃ depth, v.EndsWithin heap depth) ↔ ¬ VisitsCycle heap v := by
  cases v with
  | table t =>
    refine endsWithin_iff_no_cycle.trans (not_congr ?_)
    constructor
    · rintro ⟨u, htu, hu⟩
      exact ⟨t, u, rfl, htu, hu⟩
    · rintro ⟨t', u, heq, htu, hu⟩
      obtain rfl := LuaValue.table.inj heq
      exact ⟨u, htu, hu⟩
  | _ =>
    refine iff_of_true ⟨0, trivial⟩ ?_
    rintro ⟨t, u, heq, -⟩
    cases heq

/-- The kinds of `Value` that are built here. -/
inductive PlainValue where
  | empty
  | nil
  | real (r : Int)
  | string (s : String)
  | list (l : List PlainValue)

/-- `push_back` starts with the value itself, and makes a list of two. -/
def PlainValue.pushBack : PlainValue → PlainValue → PlainValue
  | .empty, val => val
  | .list l, val => .list (l ++ [val])
  | first, val => .list [first, val]

def plainValue : OscitValue PlainValue Int :=
  ⟨.nil, .empty, .real, .string, PlainValue.pushBack⟩

/-- The table `{1, 2}`. -/
def twoNumbers : Fin 1 → LuaTable (Fin 1) Int := fun _ =>
  ⟨[.number 1, .number 2], fun _ => .nil⟩

/-- After `t[1] = t`. -/
def selfReferring : Fin 1 → LuaTable (Fin 1) Int := fun _ => ⟨[.table 0], fun _ => .nil⟩

theorem selfReferring_not_endsWithin (depth : Nat) :
    ¬ LuaValue.EndsWithin selfReferring depth (.table 0) := by
  have hvisits : Visits selfReferring 0 0 := ⟨rfl, List.mem_singleton.mpr rfl⟩
  exact fun hends => hends.not_transGen (.single hvisits)

end LuaScript

end Rubyk
