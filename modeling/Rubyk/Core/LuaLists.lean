/-
  Core/LuaLists.lean --- `LuaScript::lua_pushvalue` and `lua_pushlist` of
  `src/core/lua_script.cpp`, and what `value_from_lua` makes of what they push.

  A value that is handed to a script and returned by it comes back as it was, with three
  exceptions.  A string ends at its first NUL.  What Lua has no form for comes back nil.
  And a list has no length in Lua: `lua_objlen` looks for a place where the elements
  end, and when the last one is nil it may find another one.

  THE STACK.  A list needs three slots, for its table, the key and the value of an element,
  and lists in it need two more each level (`slots`).  Where there are fewer, something is
  written behind the stack (`pushvalue_overflow`).

  TABLES.  `lua_createtable(L, n, 0)` makes an array part of `n` nils and no hash part;
  the elements are written into it.  `getn` is `luaH_getn` of such a table.

  STRUCTURE.  `Holds` says that a Lua value is what was pushed for a value.  Pushing
  establishes it (`pushvalue_holds`), and reading only needs it (`valueFromLua_holds`).
-/
import Mathlib.Algebra.Ring.Nat
import Mathlib.Data.List.TakeWhile
import Mathlib.Data.Nat.Cast.Defs
import Rubyk.Core.LuaValues

set_option autoImplicit false

namespace Rubyk

open Lib

variable {R V : Type}

/-- A `Value`, as far as `lua_pushvalue` tells them apart. -/
inductive HostValue (R : Type) where
  | real (r : R)
  | string (s : String)
  | list (l : List (HostValue R))
  /-- nil, empty, any, errors, hashes, matrices and midi messages -/
  | other

/-- A table. -/
structure TableCells (R : Type) where
  /-- the array part -/
  array : List (LuaValue Nat R)
  /-- the elements behind it, in the hash part -/
  hashed : List (LuaValue Nat R)
  field : String → LuaValue Nat R

/-- `lua_State`: the slots of the stack, what is on it, and the tables there are; the address of
a table is its position. -/
structure LuaState (R : Type) where
  size : Nat
  stack : LuaStack Nat R
  tables : List (TableCells R)

/-! ## `luaH_getn` -/

/-- Whether the element `m`, counted from 1, is nil; `nils` is the array as `ttisnil` sees
it. -/
def nilAt (nils : List Bool) (m : Nat) : Bool := (nils[m - 1]?).getD true

/-- The binary search of `luaH_getn`; `fuel` is at least `j - i`. -/
def getnSearch (nils : List Bool) : Nat → Nat → Nat → Nat
  | 0, i, _ => i
  | fuel + 1, i, j =>
      if 1 < j - i then
        if nilAt nils ((i + j) / 2) then getnSearch nils fuel i ((i + j) / 2)
        else getnSearch nils fuel ((i + j) / 2) j
      else i

/-- `luaH_getn` of a table without hash part. -/
def getn (nils : List Bool) : Nat :=
  if 0 < nils.length ∧ nilAt nils nils.length then getnSearch nils nils.length 0 nils.length
  else nils.length

/-- `ttisnil`. -/
def LuaValue.isNil {T : Type} : LuaValue T R → Bool
  | .nil => true
  | _ => false

/-- The elements `1 .. #t`; the hash part is looked at when the array part is full. -/
def TableCells.elements (cells : TableCells R) : List (LuaValue Nat R) :=
  let n := getn (cells.array.map LuaValue.isNil)
  if n = cells.array.length then cells.array ++ cells.hashed else cells.array.take n

/-- The tables, as `value_from_lua` sees them. -/
def heapOf (tables : List (TableCells R)) (t : Nat) : LuaTable Nat R :=
  match tables[t]? with
  | some cells => ⟨cells.elements, cells.field⟩
  | none => ⟨[], fun _ => .nil⟩

/-! ## Pushing -/

namespace LuaState

/-- `lua_pushnumber`, `lua_pushstring` and `lua_pushnil`. -/
def push (L : LuaState R) (v : LuaValue Nat R) : Except LuaFault (LuaState R) := do
  let stack ← L.stack.push L.size v
  .ok { L with stack := stack }

/-- `lua_createtable(L, narray, 0)`. -/
def createtable (L : LuaState R) (narray : Nat) : Except LuaFault (LuaState R) := do
  let L ← L.push (.table L.tables.length)
  .ok { L with tables := L.tables ++ [⟨List.replicate narray .nil, [], fun _ => .nil⟩] }

/-- `lua_settable(L, -3)`; the key, under the value, is the number `key`, and it is in the
array part. -/
def settable (L : LuaState R) (key : Nat) : Except LuaFault (LuaState R) :=
  match L.stack.slot (-3), L.stack.getLast? with
  | some (.table t), some v =>
      .ok { L with
        stack := L.stack.pop 2
        tables := L.tables.modify t fun cells =>
          { cells with array := cells.array.set (key - 1) v } }
  | _, _ => .error .badIndex

end LuaState

namespace LuaScript

variable [NatCast R]

mutual

/-- `lua_pushvalue`; it answers true whatever `lua_pushlist` answers. -/
def pushvalue : HostValue R → LuaState R → Except LuaFault (Bool × LuaState R)
  | .real r, L => do
      let L ← L.push (.number r)
      .ok (true, L)
  | .string s, L => do
      let L ← L.push (.string (cString s))
      .ok (true, L)
  | .list l, L => do
      -- `lua_pushlist`
      let L ← L.createtable l.length
      let (_, L) ← pushElements 0 l L
      .ok (true, L)
  | .other, L => do
      let L ← L.push .nil
      .ok (true, L)

/-- The loop of `lua_pushlist`, at index `i`. -/
def pushElements : Nat → List (HostValue R) → LuaState R → Except LuaFault (Bool × LuaState R)
  | _, [], L => .ok (true, L)
  | i, v :: vs, L => do
      let L ← L.push (.number ((i + 1 : Nat) : R))
      let (pushed, L) ← pushvalue v L
      if pushed then
        let L ← L.settable (i + 1)
        pushElements (i + 1) vs L
      else .ok (false, L)

end

end LuaScript

/-! ## What was pushed -/

mutual

/-- The Lua value is what is pushed for the value, in tables from `base` on. -/
def Holds (tables : List (TableCells R)) (base : Nat) : HostValue R → LuaValue Nat R → Prop
  | .real r, w => w = .number r
  | .string s, w => w = .string (cString s)
  | .list l, w => ∃ t cells, w = .table t ∧ base ≤ t ∧ tables[t]? = some cells ∧
      cells.hashed = [] ∧ cells.field = (fun _ => .nil) ∧ HoldsAll tables base l cells.array
  | .other, w => w = .nil

/-- The elements are what is pushed for the values. -/
def HoldsAll (tables : List (TableCells R)) (base : Nat) :
    List (HostValue R) → List (LuaValue Nat R) → Prop
  | [], ws => ws = []
  | v :: vs, ws => ∃ w rest, ws = w :: rest ∧ Holds tables base v w ∧ HoldsAll tables base vs rest

end

section Frame

variable {tables tables' : List (TableCells R)} {base base' : Nat}

mutual

/-- Tables that are not part of it may change. -/
theorem Holds.frame (hbase : base' ≤ base)
    (hsame : ∀ t cells, base ≤ t → tables[t]? = some cells → tables'[t]? = some cells) :
    ∀ {v : HostValue R} {w : LuaValue Nat R}, Holds tables base v w → Holds tables' base' v w
  | .real _, _, h => h
  | .string _, _, h => h
  | .list _, _, ⟨t, cells, hw, ht, hget, hhashed, hfield, hall⟩ =>
      ⟨t, cells, hw, hbase.trans ht, hsame t cells ht hget, hhashed, hfield,
        hall.frame hbase hsame⟩
  | .other, _, h => h

theorem HoldsAll.frame (hbase : base' ≤ base)
    (hsame : ∀ t cells, base ≤ t → tables[t]? = some cells → tables'[t]? = some cells) :
    ∀ {vs : List (HostValue R)} {ws : List (LuaValue Nat R)}, HoldsAll tables base vs ws →
      HoldsAll tables' base' vs ws
  | [], _, h => h
  | _ :: _, _, ⟨w, rest, hws, hw, hrest⟩ =>
      ⟨w, rest, hws, hw.frame hbase hsame, hrest.frame hbase hsame⟩

end

end Frame

/-! ## Pushing establishes it -/

mutual

/-- The slots that are needed to push a value. -/
def HostValue.slots : HostValue R → Nat
  | .list l => 1 + HostValue.slotsAll l
  | _ => 1

/-- The slots above a table that are needed to write its elements. -/
def HostValue.slotsAll : List (HostValue R) → Nat
  | [] => 0
  | v :: vs => max (1 + v.slots) (HostValue.slotsAll vs)

end

namespace LuaState

variable {L : LuaState R} {below : LuaStack Nat R} {t : Nat}

theorem push_eq (h : L.stack.length < L.size) (v : LuaValue Nat R) :
    L.push v = .ok { L with stack := L.stack ++ [v] } := by
  rw [push, LuaStack.push_eq h, ok_bind]

theorem push_full (h : L.size ≤ L.stack.length) (v : LuaValue Nat R) :
    L.push v = .error .overflow := by
  rw [push, LuaStack.push_full h, error_bind]

theorem createtable_eq (h : L.stack.length < L.size) (narray : Nat) :
    L.createtable narray = .ok ⟨L.size, L.stack ++ [.table L.tables.length],
      L.tables ++ [⟨List.replicate narray .nil, [], fun _ => .nil⟩]⟩ := by
  rw [createtable, push_eq h, ok_bind]

theorem createtable_full (h : L.size ≤ L.stack.length) (narray : Nat) :
    L.createtable narray = .error .overflow := by
  rw [createtable, push_full h, error_bind]

theorem settable_eq (key : Nat) {k : R} {v : LuaValue Nat R}
    (hstack : L.stack = below ++ [.table t, .number k, v]) :
    L.settable key = .ok ⟨L.size, below ++ [.table t], L.tables.modify t fun cells =>
      { cells with array := cells.array.set (key - 1) v }⟩ := by
  have hsplit : L.stack = (below ++ [.table t]) ++ [.number k, v] := by simp [hstack]
  have habs : L.stack.absIndex (-3) = below.length + 1 := by
    simp [LuaStack.absIndex, hstack]
  have hget : L.stack[below.length]? = some (.table t) := by simp [hstack]
  have hslot : L.stack.slot (-3) = some (.table t) := by
    simp [LuaStack.slot, habs, hget]
  have hlast : L.stack.getLast? = some v := by simp [hstack]
  have hpop : L.stack.pop 2 = below ++ [.table t] := by
    have hlength : L.stack.length - 2 = (below ++ [LuaValue.table (R := R) t]).length := by
      simp [hstack]
    rw [LuaStack.pop, hlength, hsplit, List.take_left]
  simp only [settable, hslot, hlast, hpop]

end LuaState

namespace LuaScript

variable [NatCast R]

/-- An element that could be pushed is written into the table. -/
theorem pushElements_cons {i t : Nat} {v : HostValue R} (vs : List (HostValue R))
    {L : LuaState R} {below : LuaStack Nat R} {w : LuaValue Nat R}
    {tables : List (TableCells R)} (hstack : L.stack = below ++ [.table t])
    (hroom : L.stack.length < L.size)
    (hpush : pushvalue v { L with stack := L.stack ++ [.number ((i + 1 : Nat) : R)] } =
      .ok (true, ⟨L.size, L.stack ++ [.number ((i + 1 : Nat) : R)] ++ [w], tables⟩)) :
    pushElements i (v :: vs) L = pushElements (i + 1) vs ⟨L.size, L.stack,
      tables.modify t fun cells => { cells with array := cells.array.set i w }⟩ := by
  have hpushed : L.stack ++ [.number ((i + 1 : Nat) : R)] ++ [w] =
      below ++ [.table t, .number ((i + 1 : Nat) : R), w] := by
    simp [hstack]
  have hset := LuaState.settable_eq (L := ⟨L.size, _, tables⟩) (i + 1) hpushed
  rw [← hstack] at hset
  simp only [pushElements, LuaState.push_eq hroom, ok_bind, hpush, if_true, hset,
    Nat.add_sub_cancel]

mutual

/-- Where there is room, one value is pushed, and no table there was is changed. -/
theorem pushvalue_holds : ∀ (v : HostValue R) (L : LuaState R),
    L.stack.length + v.slots ≤ L.size →
    ∃ w tables', pushvalue v L = .ok (true, ⟨L.size, L.stack ++ [w], tables'⟩) ∧
      L.tables.length ≤ tables'.length ∧
      (∀ u, u < L.tables.length → tables'[u]? = L.tables[u]?) ∧
      Holds tables' L.tables.length v w
  | .real r, L, hroom =>
      ⟨.number r, L.tables, by rw [pushvalue, LuaState.push_eq hroom, ok_bind], Nat.le_refl _,
        fun _ _ => rfl, rfl⟩
  | .string s, L, hroom =>
      ⟨.string (cString s), L.tables, by rw [pushvalue, LuaState.push_eq hroom, ok_bind],
        Nat.le_refl _, fun _ _ => rfl, rfl⟩
  | .other, L, hroom =>
      ⟨.nil, L.tables, by rw [pushvalue, LuaState.push_eq hroom, ok_bind], Nat.le_refl _,
        fun _ _ => rfl, rfl⟩
  | .list l, L, hroom => by
      rw [HostValue.slots] at hroom
      have hcreate := LuaState.createtable_eq (L := L) (by omega) l.length
      generalize hnewL : (⟨L.size, L.stack ++ [.table L.tables.length],
        L.tables ++ [⟨List.replicate l.length .nil, [], fun _ => .nil⟩]⟩ : LuaState R) = M
        at hcreate
      have hnew : M.tables[L.tables.length]? =
          some ⟨[] ++ List.replicate l.length .nil, [], fun _ => .nil⟩ := by
        simp [← hnewL]
      have hmore : M.tables.length = L.tables.length + 1 := by
        simp [← hnewL]
      have hstack : M.stack = L.stack ++ [.table L.tables.length] := by rw [← hnewL]
      have hsize : M.size = L.size := by rw [← hnewL]
      have hroom' : M.stack.length + HostValue.slotsAll l ≤ M.size := by
        rw [hstack, hsize, List.length_append, List.length_singleton]
        omega
      obtain ⟨ws, tables', hpush, hlength, hsame, hget, hall⟩ :=
        pushElements_holds l 0 M hstack rfl hnew hroom'
      rw [hmore] at hlength hsame
      refine ⟨.table L.tables.length, tables', ?_, Nat.le_of_succ_le hlength, fun u hu => ?_, ?_⟩
      · simp only [pushvalue, hcreate, hpush, ok_bind, hstack, hsize]
      · rw [hsame u (Nat.lt_succ_of_lt hu) (Nat.ne_of_lt hu), ← hnewL]
        exact List.getElem?_append_left hu
      · exact ⟨L.tables.length, _, rfl, Nat.le_refl _, hget, rfl, rfl,
          hall.frame (Nat.le_succ _) fun _ _ _ h => h⟩

/-- The elements are written into the table under them, one after the other. -/
theorem pushElements_holds : ∀ (vs : List (HostValue R)) (i : Nat) (L : LuaState R)
    {below : LuaStack Nat R} {t : Nat} {done : List (LuaValue Nat R)},
    L.stack = below ++ [.table t] → i = done.length →
    L.tables[t]? = some ⟨done ++ List.replicate vs.length .nil, [], fun _ => .nil⟩ →
    L.stack.length + HostValue.slotsAll vs ≤ L.size →
    ∃ ws tables', pushElements i vs L = .ok (true, ⟨L.size, L.stack, tables'⟩) ∧
      L.tables.length ≤ tables'.length ∧
      (∀ u, u < L.tables.length → u ≠ t → tables'[u]? = L.tables[u]?) ∧
      tables'[t]? = some ⟨done ++ ws, [], fun _ => .nil⟩ ∧ HoldsAll tables' (t + 1) vs ws
  | [], i, L, below, t, done, _, _, hget, _ =>
      ⟨[], L.tables, rfl, Nat.le_refl _, fun _ _ _ => rfl, by simpa using hget, rfl⟩
  | v :: vs, i, L, below, t, done, hstack, hi, hget, hroom => by
      rw [HostValue.slotsAll] at hroom
      have hkey : L.stack.length < L.size := by omega
      have hvalue : (L.stack ++ [LuaValue.number (T := Nat) ((i + 1 : Nat) : R)]).length +
          v.slots ≤ L.size := by
        rw [List.length_append, List.length_singleton]
        omega
      obtain ⟨w, tables₁, hpush, hlength₁, hsame₁, hholds⟩ :=
        pushvalue_holds v { L with stack := L.stack ++ [.number ((i + 1 : Nat) : R)] } hvalue
      have ht : t < L.tables.length := (List.getElem?_eq_some_iff.mp hget).1
      change L.tables.length ≤ tables₁.length at hlength₁
      change ∀ u, u < L.tables.length → tables₁[u]? = L.tables[u]? at hsame₁
      change Holds tables₁ L.tables.length v w at hholds
      -- the element goes into its place
      have hget₁ : tables₁[t]? =
          some ⟨done ++ List.replicate (v :: vs).length .nil, [], fun _ => .nil⟩ :=
        (hsame₁ t ht).trans hget
      have harray : (done ++ List.replicate (v :: vs).length LuaValue.nil).set i w =
          (done ++ [w]) ++ List.replicate vs.length .nil := by
        simp [hi, List.replicate_succ]
      have hcons := pushElements_cons vs hstack hkey hpush
      generalize hm₂ : tables₁.modify t (fun cells =>
        { cells with array := cells.array.set i w }) = tables₂ at hcons
      have hlength₂ : tables₂.length = tables₁.length := by rw [← hm₂, List.length_modify]
      have hother (u : Nat) (hu : u ≠ t) : tables₂[u]? = tables₁[u]? := by
        rw [← hm₂, List.getElem?_modify_ne _ _ (Ne.symm hu)]
      have hget₂ : tables₂[t]? =
          some ⟨(done ++ [w]) ++ List.replicate vs.length .nil, [], fun _ => .nil⟩ := by
        rw [← hm₂, List.getElem?_modify_eq, hget₁, ← harray]
        rfl
      obtain ⟨ws, tables', hrest, hlength, hsame, hget', hall⟩ :=
        pushElements_holds vs (i + 1) ⟨L.size, L.stack, tables₂⟩ hstack (by simp [hi]) hget₂
          ((Nat.add_le_add_left (Nat.le_max_right _ _) _).trans hroom)
      have hle : L.tables.length ≤ tables₂.length := hlength₂ ▸ hlength₁
      refine ⟨w :: ws, tables', hcons.trans hrest, hle.trans hlength, fun u hu hne => ?_, ?_, ?_⟩
      · rw [hsame u (Nat.lt_of_lt_of_le hu hle) hne, hother u hne, hsame₁ u hu]
      · simpa using hget'
      · refine ⟨w, ws, rfl, hholds.frame ht fun u cells hu hcells => ?_, hall⟩
        have hlt : u < tables₂.length :=
          hlength₂ ▸ (List.getElem?_eq_some_iff.mp hcells).1
        have hne : u ≠ t := by omega
        rw [hsame u hlt hne, hother u hne, hcells]

end

mutual

/-- Where there is too little room, something is written behind the stack. -/
theorem pushvalue_overflow : ∀ (v : HostValue R) (L : LuaState R),
    L.size < L.stack.length + v.slots → pushvalue v L = .error .overflow
  | .real _, _, hfew => by
      rw [pushvalue, LuaState.push_full (Nat.le_of_lt_succ hfew), error_bind]
  | .string _, _, hfew => by
      rw [pushvalue, LuaState.push_full (Nat.le_of_lt_succ hfew), error_bind]
  | .other, _, hfew => by
      rw [pushvalue, LuaState.push_full (Nat.le_of_lt_succ hfew), error_bind]
  | .list l, L, hfew => by
      rw [HostValue.slots] at hfew
      rcases Nat.lt_or_ge L.stack.length L.size with hroom | hfull
      · have hlength : (L.stack ++ [LuaValue.table (R := R) L.tables.length]).length =
            L.stack.length + 1 := List.length_append
        have helements := pushElements_overflow l 0 ⟨L.size, L.stack ++ [.table L.tables.length],
          L.tables ++ [⟨List.replicate l.length .nil, [], fun _ => .nil⟩]⟩ rfl
          (by simp only [hlength]; omega) (by simp only [hlength]; omega)
        rw [pushvalue, LuaState.createtable_eq hroom, ok_bind, helements, error_bind]
      · rw [pushvalue, LuaState.createtable_full hfull, error_bind]

theorem pushElements_overflow : ∀ (vs : List (HostValue R)) (i : Nat) (L : LuaState R)
    {below : LuaStack Nat R} {t : Nat}, L.stack = below ++ [.table t] →
    L.stack.length ≤ L.size → L.size < L.stack.length + HostValue.slotsAll vs →
    pushElements i vs L = .error .overflow
  | [], _, _, _, _, _, hle, hfew => absurd hfew (Nat.not_lt.mpr hle)
  | v :: vs, i, L, below, t, hstack, _, hfew => by
      rw [HostValue.slotsAll] at hfew
      have hlength : (L.stack ++ [LuaValue.number (T := Nat) ((i + 1 : Nat) : R)]).length =
          L.stack.length + 1 := List.length_append
      rcases Nat.lt_or_ge L.stack.length L.size with hroom | hfull
      · rcases Nat.lt_or_ge L.size (L.stack.length + 1 + v.slots) with hvalue | hvalue
        · have hpush := pushvalue_overflow v
            { L with stack := L.stack ++ [.number ((i + 1 : Nat) : R)] } (by rwa [hlength])
          rw [pushElements, LuaState.push_eq hroom, ok_bind, hpush, error_bind]
        · obtain ⟨w, tables, hpush, -⟩ := pushvalue_holds v
            { L with stack := L.stack ++ [.number ((i + 1 : Nat) : R)] } (by rwa [hlength])
          rw [pushElements_cons vs hstack hroom hpush]
          exact pushElements_overflow vs (i + 1) ⟨L.size, L.stack, _⟩ hstack hroom.le (by
            change L.size < L.stack.length + HostValue.slotsAll vs
            omega)
      · rw [pushElements, LuaState.push_full hfull, error_bind]

end

end LuaScript

/-! ## What comes back -/

/-- Lua has no form for the value but nil. -/
def HostValue.isOther : HostValue R → Bool
  | .other => true
  | _ => false

mutual

/-- How deep lists are nested. -/
def HostValue.depth : HostValue R → Nat
  | .list l => HostValue.depthAll l + 1
  | _ => 0

def HostValue.depthAll : List (HostValue R) → Nat
  | [] => 0
  | v :: vs => max v.depth (HostValue.depthAll vs)

end

mutual

/-- What a script that returns the value it was called with returns to the program. -/
def readBack (o : OscitValue V R) : HostValue R → V
  | .real r => o.real r
  | .string s => o.string (cString s)
  | .list l =>
      ((readBackAll o l).take (getn (l.map HostValue.isOther))).foldl o.pushBack o.empty
  | .other => o.nil

/-- The same, for the elements of a list. -/
def readBackAll (o : OscitValue V R) : List (HostValue R) → List V
  | [] => []
  | v :: vs => readBack o v :: readBackAll o vs

end

@[simp] theorem length_readBackAll (o : OscitValue V R) :
    ∀ vs : List (HostValue R), (readBackAll o vs).length = vs.length
  | [] => rfl
  | _ :: vs => congrArg (· + 1) (length_readBackAll o vs)

section Elements

variable {tables : List (TableCells R)} {base : Nat} {v : HostValue R} {w : LuaValue Nat R}

theorem Holds.isNil (h : Holds tables base v w) : w.isNil = v.isOther := by
  cases v with
  | list l =>
    obtain ⟨t, cells, rfl, -⟩ := h
    rfl
  | _ =>
    obtain rfl := h
    rfl

theorem HoldsAll.map_isNil : ∀ {vs : List (HostValue R)} {ws : List (LuaValue Nat R)},
    HoldsAll tables base vs ws → ws.map LuaValue.isNil = vs.map HostValue.isOther
  | [], _, h => by rw [h]; rfl
  | _ :: _, _, ⟨_, _, hws, hw, hrest⟩ => by
      rw [hws, List.map_cons, List.map_cons, hw.isNil, hrest.map_isNil]

/-- An element of the table is what was pushed for an element of the list. -/
theorem HoldsAll.element (o : OscitValue V R) : ∀ {vs : List (HostValue R)}
    {ws : List (LuaValue Nat R)}, HoldsAll tables base vs ws → ∀ {k : Nat}, k < ws.length →
      ∃ v w, ws[k]? = some w ∧ Holds tables base v w ∧ v.depth ≤ HostValue.depthAll vs ∧
        (readBackAll o vs)[k]? = some (readBack o v)
  | [], ws, h, k, hk => by
      rw [show ws = [] from h] at hk
      exact absurd hk (Nat.not_lt_zero k)
  | v :: _, _, ⟨w, _, hws, hw, _⟩, 0, _ =>
      ⟨v, w, by rw [hws]; rfl, hw, Nat.le_max_left _ _, rfl⟩
  | _ :: _, _, ⟨_, _, hws, _, hrest⟩, k + 1, hk => by
      obtain ⟨v, w, hget, hw, hdepth, hread⟩ := hrest.element o (k := k) (by simpa [hws] using hk)
      exact ⟨v, w, by rw [hws]; exact hget, hw, hdepth.trans (Nat.le_max_right _ _), hread⟩

end Elements

/-! ## Reading only needs what was pushed -/

namespace LuaScript

variable {o : OscitValue V R} {heap : Nat → LuaTable Nat R} {size : Nat}
  {stack : LuaStack Nat R}
  {convert : LuaStack Nat R → Int → V → Except LuaFault (Bool × V × LuaStack Nat R)}

/-- The loop pushes back what each element is converted to. -/
theorem listLoop_eq {p t : Nat} (hslot : stack[p]? = some (.table t))
    (hroom : stack.length < size) {is : List Nat} (g : Nat → V)
    (his : ∀ i ∈ is, ∀ tmp, convert (stack ++ [((heap t).elements[i - 1]?).getD .nil]) (-1) tmp =
      .ok (true, g i, stack ++ [((heap t).elements[i - 1]?).getD .nil])) (val tmp : V) :
    listLoop o heap size convert (p + 1) is val tmp stack =
      .ok ((is.map g).foldl o.pushBack val, stack) := by
  induction is generalizing val tmp with
  | nil => rfl
  | cons i is ih =>
    simp only [listLoop, LuaStack.rawgeti_eq hslot hroom, ok_bind, his i List.mem_cons_self,
      LuaStack.pop_push, if_true, List.map_cons, List.foldl_cons]
    exact ih (fun j hj => his j (List.mem_cons_of_mem i hj)) _ _

theorem map_range'_getD {α : Type} (l : List α) (d : α) {n : Nat} (hn : n ≤ l.length) :
    (List.range' 1 n).map (fun i => (l[i - 1]?).getD d) = l.take n := by
  refine List.ext_getElem (by simp [hn]) fun k hk _ => ?_
  have hlt : k < l.length := by simp at hk; omega
  simp [Nat.add_comm 1 k, List.getElem?_eq_getElem hlt]

theorem getnSearch_lt (nils : List Bool) (fuel : Nat) {i j : Nat} (h : i < j) :
    getnSearch nils fuel i j < j := by
  induction fuel generalizing i j with
  | zero => exact h
  | succ fuel ih =>
    rw [getnSearch]
    split
    · have hm : i < (i + j) / 2 ∧ (i + j) / 2 < j := by omega
      split
      · exact (ih hm.1).trans hm.2
      · exact ih hm.2
    · exact h

theorem getn_le (nils : List Bool) : getn nils ≤ nils.length := by
  unfold getn
  split
  · rename_i h
    exact (getnSearch_lt nils _ h.1).le
  · exact Nat.le_refl _

variable [Zero R] [One R] {tables : List (TableCells R)} {base : Nat}

theorem cString_cString (s : String) : cString (cString s) = cString s := by
  simp [cString, List.takeWhile_idem]

/-- What is not a list is read without a look at the tables. -/
theorem valueFromLua_plain (o : OscitValue V R) {heap : Nat → LuaTable Nat R} {size fuel : Nat}
    {v : HostValue R} {w : LuaValue Nat R} (hholds : Holds tables base v w)
    (hplain : ∀ l, v ≠ .list l) (stack : LuaStack Nat R) (res : V) :
    valueFromLua o heap size fuel (stack ++ [w]) (-1) res =
      .ok (true, readBack o v, stack ++ [w]) := by
  obtain ⟨hslot, hle⟩ := LuaStack.slot_absIndex (LuaStack.slot_top stack w)
  unfold valueFromLua
  simp only [if_neg hle, hslot]
  cases v with
  | list l => exact absurd rfl (hplain l)
  | string s =>
    obtain rfl := hholds
    simp only [cString_cString, readBack]
  | real r =>
    obtain rfl := hholds
    rfl
  | other =>
    obtain rfl := hholds
    rfl

omit [Zero R] [One R] in
/-- What was pushed for a list has as many elements as `luaH_getn` finds. -/
theorem heapOf_list {t : Nat} {cells : TableCells R} {l : List (HostValue R)}
    (hget : tables[t]? = some cells) (hhashed : cells.hashed = [])
    (hfield : cells.field = fun _ => .nil) (hall : HoldsAll tables base l cells.array) :
    heapOf tables t = ⟨cells.array.take (getn (l.map HostValue.isOther)), fun _ => .nil⟩ := by
  have helements : cells.elements = cells.array.take (getn (l.map HostValue.isOther)) := by
    rw [TableCells.elements, hhashed, List.append_nil, ← hall.map_isNil]
    split
    · rename_i hfull
      rw [hfull, List.take_length]
    · rfl
  simp only [heapOf, hget, helements, hfield]

/-- A value that was pushed is read back, without a trace on the stack, if each level of its lists
finds a free slot. -/
theorem valueFromLua_holds (o : OscitValue V R) {size fuel : Nat} {v : HostValue R}
    {w : LuaValue Nat R} (hholds : Holds tables base v w) (hfuel : v.depth ≤ fuel)
    (stack : LuaStack Nat R) (hroom : stack.length + 1 + v.depth ≤ size) (res : V) :
    valueFromLua o (heapOf tables) size fuel (stack ++ [w]) (-1) res =
      .ok (true, readBack o v, stack ++ [w]) := by
  induction fuel generalizing v w stack res with
  | zero =>
    cases v with
    | list l => simp [HostValue.depth] at hfuel
    | _ => exact valueFromLua_plain o hholds (by simp) stack res
  | succ fuel ih =>
    cases v with
    | list l =>
      obtain ⟨t, cells, rfl, -, hget, hhashed, hfield, hall⟩ := hholds
      rw [HostValue.depth] at hfuel hroom
      have hdepth : HostValue.depthAll l ≤ fuel := Nat.le_of_succ_le_succ hfuel
      have htable := heapOf_list hget hhashed hfield hall
      have hfree : (stack ++ [LuaValue.table (R := R) t]).length < size := by
        rw [List.length_append, List.length_singleton]
        omega
      have hle : getn (l.map HostValue.isOther) ≤ cells.array.length := by
        rw [← hall.map_isNil]
        simpa using getn_le (cells.array.map LuaValue.isNil)
      have hle' : getn (l.map HostValue.isOther) ≤ (readBackAll o l).length := by
        simpa using getn_le (l.map HostValue.isOther)
      obtain ⟨p, hslot, heq⟩ : ∃ p : Nat, _ ∧
          valueFromLua o (heapOf tables) size (fuel + 1) _ (-1) res = _ :=
        valueFromLua_table o (heapOf tables) fuel (LuaStack.slot_top stack (.table t)) hfree res
      have hmessage : (heapOf tables t).isMessage = false := by
        rw [LuaTable.isMessage, htable]
        rfl
      have hlength : (heapOf tables t).elements.length = getn (l.map HostValue.isOther) := by
        simp [htable, hle]
      have hloop : listLoop o (heapOf tables) size (valueFromLua o (heapOf tables) size fuel)
          (p + 1) (List.range' 1 (getn (l.map HostValue.isOther))) o.empty o.empty
            (stack ++ [.table t]) = .ok (_, stack ++ [.table t]) :=
        listLoop_eq hslot hfree (fun i => ((readBackAll o l)[i - 1]?).getD o.nil)
          (fun i hi tmp => by
          obtain ⟨hpos, hlt⟩ := List.mem_range'_1.mp hi
          have hk : i - 1 < getn (l.map HostValue.isOther) := by omega
          obtain ⟨e, w, hew, he, hedepth, hread⟩ := hall.element o (hk.trans_le hle)
          have helement : ((heapOf tables t).elements[i - 1]?).getD .nil = w := by
            rw [htable]
            simp [hk, hew]
          rw [helement, hread]
          refine ih he (hedepth.trans hdepth) _ ?_ tmp
          rw [List.length_append, List.length_singleton]
          omega) o.empty o.empty
      have hvalues : (List.range' 1 (getn (l.map HostValue.isOther))).map
          (fun i => ((readBackAll o l)[i - 1]?).getD o.nil) =
          (readBackAll o l).take (getn (l.map HostValue.isOther)) :=
        map_range'_getD _ _ hle'
      rw [heq, hmessage]
      simp only [Bool.false_eq_true, if_false, listFromLua, LuaStack.tableAt_eq hslot, ok_bind,
        hlength, hloop, hvalues]
      rfl
    | _ => exact valueFromLua_plain o hholds (by simp) stack res

variable [NatCast R]

end LuaScript

/-! ## What comes back whole -/

mutual

/-- The value, with all elements of its lists. -/
def rebuilt (o : OscitValue V R) : HostValue R → V
  | .real r => o.real r
  | .string s => o.string (cString s)
  | .list l => (rebuiltAll o l).foldl o.pushBack o.empty
  | .other => o.nil

def rebuiltAll (o : OscitValue V R) : List (HostValue R) → List V
  | [] => []
  | v :: vs => rebuilt o v :: rebuiltAll o vs

end

mutual

/-- No list of the value ends with something that Lua has no form for. -/
def HostValue.Held : HostValue R → Prop
  | .list l => l.getLast?.map HostValue.isOther ≠ some true ∧ HostValue.HeldAll l
  | _ => True

def HostValue.HeldAll : List (HostValue R) → Prop
  | [] => True
  | v :: vs => v.Held ∧ HostValue.HeldAll vs

end

/-- The search for the end is only needed when the last element is nil, and then it finds
another one. -/
theorem getn_eq_length {nils : List Bool} :
    getn nils = nils.length ↔ nils.getLast? ≠ some true := by
  have hlast : 0 < nils.length ∧ nilAt nils nils.length = true ↔ nils.getLast? = some true := by
    cases nils with
    | nil => simp
    | cons b nils => simp [nilAt, List.getLast?_eq_getElem?]
  unfold getn
  split
  · rename_i h
    exact iff_of_false (LuaScript.getnSearch_lt nils _ h.1).ne (not_not.mpr (hlast.mp h))
  · rename_i h
    exact iff_of_true rfl fun hsome => h (hlast.mpr hsome)

mutual

theorem HostValue.Held.readBack_eq (o : OscitValue V R) :
    ∀ {v : HostValue R}, v.Held → readBack o v = rebuilt o v
  | .real _, _ => rfl
  | .string _, _ => rfl
  | .other, _ => rfl
  | .list l, ⟨hlast, hall⟩ => by
      have hgetn : getn (l.map HostValue.isOther) = (readBackAll o l).length := by
        rw [getn_eq_length.mpr (by rwa [List.getLast?_map]), length_readBackAll, List.length_map]
      rw [readBack, rebuilt, hgetn, List.take_length, hall.readBackAll_eq o]

theorem HostValue.HeldAll.readBackAll_eq (o : OscitValue V R) :
    ∀ {vs : List (HostValue R)}, HostValue.HeldAll vs → readBackAll o vs = rebuiltAll o vs
  | [], _ => rfl
  | _ :: _, ⟨hv, hvs⟩ => by
      rw [readBackAll, rebuiltAll, hv.readBack_eq o, hvs.readBackAll_eq o]

end

/-- A `Value` of which one only sees how many elements it has at all depths. -/
def elementCount (R : Type) : OscitValue Nat R := ⟨0, 0, fun _ => 0, fun _ => 0, (· + · + 1)⟩

theorem foldl_elementCount (l : List Nat) (n : Nat) :
    l.foldl (elementCount R).pushBack n = n + l.sum + l.length := by
  induction l generalizing n with
  | nil => rfl
  | cons k l ih =>
    rw [List.foldl_cons, ih, List.sum_cons, List.length_cons]
    simp only [elementCount]
    omega

@[simp] theorem length_rebuiltAll (o : OscitValue V R) :
    ∀ vs : List (HostValue R), (rebuiltAll o vs).length = vs.length
  | [] => rfl
  | _ :: vs => congrArg (· + 1) (length_rebuiltAll o vs)

mutual

/-- Elements are lost, never gained. -/
theorem held_of_count : ∀ v : HostValue R,
    readBack (elementCount R) v ≤ rebuilt (elementCount R) v ∧
      (readBack (elementCount R) v = rebuilt (elementCount R) v → v.Held)
  | .real _ => ⟨Nat.le_refl _, fun _ => trivial⟩
  | .string _ => ⟨Nat.le_refl _, fun _ => trivial⟩
  | .other => ⟨Nat.le_refl _, fun _ => trivial⟩
  | .list l => by
      obtain ⟨hle, hheld⟩ := heldAll_of_count l
      have hshort := LuaScript.getn_le (l.map HostValue.isOther)
      have htake : ((readBackAll (elementCount R) l).take (getn (l.map HostValue.isOther))).sum ≤
          (readBackAll (elementCount R) l).sum := by
        conv_rhs => rw [← List.take_append_drop (getn (l.map HostValue.isOther))
          (readBackAll (elementCount R) l), List.sum_append_nat]
        exact Nat.le_add_right _ _
      rw [List.length_map] at hshort
      simp only [readBack, rebuilt, foldl_elementCount, List.length_take, length_readBackAll,
        length_rebuiltAll, Nat.min_eq_left hshort]
      refine ⟨by omega, fun heq => ⟨?_, hheld (by omega)⟩⟩
      have hlength : getn (l.map HostValue.isOther) = (l.map HostValue.isOther).length := by
        rw [List.length_map]
        omega
      rw [← List.getLast?_map]
      exact getn_eq_length.mp hlength

theorem heldAll_of_count : ∀ vs : List (HostValue R),
    (readBackAll (elementCount R) vs).sum ≤ (rebuiltAll (elementCount R) vs).sum ∧
      ((readBackAll (elementCount R) vs).sum = (rebuiltAll (elementCount R) vs).sum →
        HostValue.HeldAll vs)
  | [] => ⟨Nat.le_refl _, fun _ => trivial⟩
  | v :: vs => by
      obtain ⟨hle, hheld⟩ := held_of_count v
      obtain ⟨hles, hhelds⟩ := heldAll_of_count vs
      simp only [readBackAll, rebuiltAll, List.sum_cons]
      exact ⟨by omega, fun heq => ⟨hheld (by omega), hhelds (by omega)⟩⟩

end

mutual

theorem HostValue.depth_le_slots : ∀ v : HostValue R, v.depth ≤ v.slots
  | .real _ => Nat.zero_le _
  | .string _ => Nat.zero_le _
  | .other => Nat.zero_le _
  | .list l => by
      have hall := HostValue.depthAll_le_slotsAll l
      rw [HostValue.depth, HostValue.slots]
      omega

theorem HostValue.depthAll_le_slotsAll :
    ∀ vs : List (HostValue R), HostValue.depthAll vs ≤ HostValue.slotsAll vs
  | [] => Nat.le_refl _
  | v :: vs => by
      have hv := v.depth_le_slots
      have hvs := HostValue.depthAll_le_slotsAll vs
      rw [HostValue.depthAll, HostValue.slotsAll]
      omega

end

end Rubyk
