/-
  TextCommand/Classes.lean --- the classes of bytes that the command language tells
  apart.

  Every key of the tables is the bound of a class, so all bytes of a class take the
  same transitions (`transition_eq_rep`).  The proof does not try all bytes in all
  states: a search only compares the byte with keys, so two bytes that no key
  separates take the same transition, and it is enough to try one byte for each gap
  between keys.
-/
import Rubyk.TextCommand.Tables
import Mathlib.Data.List.GetD
import Mathlib.Data.UInt

set_option autoImplicit false

namespace Rubyk.TextCommand

/-- A class of bytes of the command language. -/
inductive Cls where
  | other
  | tab
  | newline
  | space
  | doubleQuote
  | hash
  | singleQuote
  | leftParen
  | rightParen
  | plus
  | comma
  | minus
  | dot
  | slash
  | digit
  | colon
  | equal
  | greater
  | upper
  | backslash
  | underscore
  | lower
  | bar
  | tilde
  deriving DecidableEq, Repr

namespace Cls

/-- All classes. -/
def all : List Cls :=
  [other, tab, newline, space, doubleQuote, hash, singleQuote, leftParen, rightParen, plus,
    comma, minus, dot, slash, digit, colon, equal, greater, upper, backslash, underscore,
    lower, bar, tilde]

theorem mem_all (k : Cls) : k ∈ all := by cases k <;> decide

/-- The class of a byte. -/
def of (c : UInt8) : Cls :=
  if 48 ≤ c ∧ c ≤ 57 then digit
  else if 65 ≤ c ∧ c ≤ 90 then upper
  else if 97 ≤ c ∧ c ≤ 122 then lower
  else
    match c.toNat with
    | 9 => tab
    | 10 => newline
    | 32 => space
    | 34 => doubleQuote
    | 35 => hash
    | 39 => singleQuote
    | 40 => leftParen
    | 41 => rightParen
    | 43 => plus
    | 44 => comma
    | 45 => minus
    | 46 => dot
    | 47 => slash
    | 58 => colon
    | 61 => equal
    | 62 => greater
    | 92 => backslash
    | 95 => underscore
    | 124 => bar
    | 126 => tilde
    | _ => other

/-- A byte of the class. -/
def rep : Cls → UInt8
  | other => 0
  | tab => 9
  | newline => 10
  | space => 32
  | doubleQuote => 34
  | hash => 35
  | singleQuote => 39
  | leftParen => 40
  | rightParen => 41
  | plus => 43
  | comma => 44
  | minus => 45
  | dot => 46
  | slash => 47
  | digit => 48
  | colon => 58
  | equal => 61
  | greater => 62
  | upper => 65
  | backslash => 92
  | underscore => 95
  | lower => 97
  | bar => 124
  | tilde => 126

theorem of_rep (k : Cls) : of (rep k) = k := by cases k <;> decide

/-- The classes of more than one byte. -/
def sets : List Cls := [other, digit, upper, lower]

theorem of_eq_iff {c : UInt8} {k : Cls} (hk : k ∉ sets) : of c = k ↔ c = k.rep := by
  have hall : ∀ n ∈ List.range 256, of (UInt8.ofNat n) ∉ sets →
      UInt8.ofNat n = (of (UInt8.ofNat n)).rep := by
    decide +kernel
  constructor
  · rintro rfl
    have h := hall c.toNat (List.mem_range.mpr c.toNat_lt)
    rw [UInt8.ofNat_toNat] at h
    exact h hk
  · rintro rfl
    exact of_rep k

theorem of_eq_newline {c : UInt8} : of c = newline ↔ c = 10 := of_eq_iff (by decide)

end Cls

/-! ## Bytes that no key separates -/

/-- No key tells the two bytes apart. -/
def SameGap (b c : Nat) : Prop :=
  ∀ k, k = 0 ∨ k ∈ transKeys →
    (signed b).blt (signed k) = (signed c).blt (signed k) ∧
      (signed k).blt (signed b) = (signed k).blt (signed c)

theorem at_mem (table : List Nat) (i : Nat) : at_ table i = 0 ∨ at_ table i ∈ table := by
  unfold at_
  rcases lt_or_ge i table.length with h | h
  · right
    rw [List.getD_eq_getElem _ _ h]
    exact List.getElem_mem h
  · left
    exact List.getD_eq_default _ _ h

theorem searchSingle_congr {b c : Nat} (h : SameGap b c) {keys : List Nat}
    (hkeys : keys ⊆ transKeys) (fuel lower upper : Nat) :
    searchSingle keys b fuel lower upper = searchSingle keys c fuel lower upper := by
  induction fuel generalizing lower upper with
  | zero => rfl
  | succ fuel ih =>
    obtain ⟨hlt, hgt⟩ := h (at_ keys (lower + (upper - 1 - lower) / 2))
      ((at_mem keys _).imp id fun hm => hkeys hm)
    simp only [searchSingle, hlt, hgt, ih]

theorem searchRange_congr {b c : Nat} (h : SameGap b c) {keys : List Nat}
    (hkeys : keys ⊆ transKeys) (fuel lower upper : Nat) :
    searchRange keys b fuel lower upper = searchRange keys c fuel lower upper := by
  induction fuel generalizing lower upper with
  | zero => rfl
  | succ fuel ih =>
    obtain ⟨hlt, -⟩ := h (at_ keys (2 * (lower + (upper - 1 - lower) / 2)))
      ((at_mem keys _).imp id fun hm => hkeys hm)
    obtain ⟨-, hgt⟩ := h (at_ keys (2 * (lower + (upper - 1 - lower) / 2) + 1))
      ((at_mem keys _).imp id fun hm => hkeys hm)
    simp only [searchRange, hlt, hgt, ih]

theorem trans_congr {b c : Nat} (h : SameGap b c) (cs : Nat) : trans cs b = trans cs c := by
  have hkeys : transKeys.drop (at_ keyOffsets cs) ⊆ transKeys := List.drop_subset _ _
  have hranges : (transKeys.drop (at_ keyOffsets cs)).drop (at_ singleLengths cs) ⊆ transKeys :=
    fun k hk => hkeys (List.drop_subset _ _ hk)
  simp only [trans, searchSingle_congr h hkeys, searchRange_congr h hranges]

/-- The keys, each once, and what `at_` finds outside of the table. -/
def keyBounds : List Nat :=
  [0, 9, 10, 32, 34, 35, 39, 40, 41, 43, 44, 45, 46, 47, 48, 57, 58, 61, 62, 65, 90, 92, 95,
    97, 122, 124, 126]

theorem transKeys_subset : transKeys ⊆ keyBounds := by decide +kernel

/-- The first byte of each gap between keys; bytes from 128 on are negative. -/
def gapReps : List Nat :=
  [0, 1, 9, 10, 11, 32, 33, 34, 35, 36, 39, 40, 41, 42, 43, 44, 45, 46, 47, 48, 49, 57, 58, 59,
    61, 62, 63, 65, 66, 90, 91, 92, 93, 95, 96, 97, 98, 122, 123, 124, 125, 126, 127, 128]

/-- The gap a byte is in. -/
def gapOf (c : Nat) : Nat := (gapReps.filter fun g => g.ble c).getLast?.getD 0

/-- A byte and its gap are separated by no key and are in the same class. -/
def gapCheck (c : Nat) : Bool :=
  (keyBounds.all fun k =>
    ((signed c).blt (signed k) == (signed (gapOf c)).blt (signed k)) &&
      ((signed k).blt (signed c) == (signed k).blt (signed (gapOf c)))) &&
  decide (gapOf c ∈ gapReps) && decide (Cls.of (UInt8.ofNat c) = Cls.of (UInt8.ofNat (gapOf c)))

theorem gapCheck_all : (List.range 256).all gapCheck = true := by decide +kernel

theorem sameGap_gapOf {c : Nat} (hc : c < 256) : SameGap c (gapOf c) ∧ gapOf c ∈ gapReps ∧
    Cls.of (UInt8.ofNat c) = Cls.of (UInt8.ofNat (gapOf c)) := by
  have h := List.all_eq_true.mp gapCheck_all c (List.mem_range.mpr hc)
  simp only [gapCheck, Bool.and_eq_true, List.all_eq_true, decide_eq_true_eq] at h
  obtain ⟨⟨hkeys, hmem⟩, hcls⟩ := h
  refine ⟨fun k hk => ?_, hmem, hcls⟩
  have hbound : k ∈ keyBounds := by
    rcases hk with rfl | hk
    · decide
    · exact transKeys_subset hk
  obtain ⟨hlt, hgt⟩ := hkeys k hbound
  exact ⟨eq_of_beq hlt, eq_of_beq hgt⟩

/-! ## The tables as numbers -/

/-- A table of small numbers as the digits of one number. -/
def packed (table : List Nat) : Nat := table.foldr (fun x n => n * 512 + x) 0

/-- A digit.  To read one takes no walk through the table. -/
def digit (n i : Nat) : Nat := (n >>> (9 * i)) % 512

theorem digit_packed {table : List Nat} (h : ∀ x ∈ table, x < 512) (i : Nat) :
    digit (packed table) i = at_ table i := by
  induction table generalizing i with
  | nil => simp [packed, digit, at_]
  | cons x table ih =>
    have hx := h x List.mem_cons_self
    have hcons : packed (x :: table) = packed table * 512 + x := rfl
    cases i with
    | zero =>
      change packed (x :: table) % 512 = x
      omega
    | succ i =>
      have hshift : packed (x :: table) >>> 9 = packed table := by
        rw [Nat.shiftRight_eq_div_pow, hcons]
        omega
      rw [digit, Nat.mul_succ, Nat.add_comm, Nat.shiftRight_add, hshift]
      exact ih (fun y hy => h y (List.mem_cons_of_mem x hy)) i

theorem at_drop (table : List Nat) (n : Nat) :
    at_ (table.drop n) = fun i => at_ table (n + i) := by
  funext i
  simp [at_, List.getD_eq_getElem?_getD]

/-- The tables that a transition is read from. -/
abbrev tables : List (List Nat) :=
  [keyOffsets, transKeys, singleLengths, rangeLengths, indexOffsets, indicies, transTargs,
    transActions]

theorem tables_small : ∀ table ∈ tables, ∀ x ∈ table, x < 512 := by decide +kernel

theorem digit_table {table : List Nat} (h : table ∈ tables) : digit (packed table) = at_ table :=
  funext fun i => digit_packed (tables_small table h) i

/-- `searchSingle`, of keys that are read by a function. -/
def findSingle (key : Nat → Nat) (c : Nat) : Nat → Nat → Nat → Option Nat
  | 0, _, _ => none
  | fuel + 1, lower, upper =>
      bif upper.ble lower then none
      else
        let mid := lower + (upper - 1 - lower) / 2
        bif (signed c).blt (signed (key mid)) then findSingle key c fuel lower mid
        else bif (signed (key mid)).blt (signed c) then findSingle key c fuel (mid + 1) upper
        else some mid

/-- `searchRange`, of keys that are read by a function. -/
def findRange (key : Nat → Nat) (c : Nat) : Nat → Nat → Nat → Option Nat
  | 0, _, _ => none
  | fuel + 1, lower, upper =>
      bif upper.ble lower then none
      else
        let mid := lower + (upper - 1 - lower) / 2
        bif (signed c).blt (signed (key (2 * mid))) then findRange key c fuel lower mid
        else bif (signed (key (2 * mid + 1))).blt (signed c) then
          findRange key c fuel (mid + 1) upper
        else some mid

theorem searchSingle_eq (keys : List Nat) (c fuel lower upper : Nat) :
    searchSingle keys c fuel lower upper = findSingle (at_ keys) c fuel lower upper := by
  induction fuel generalizing lower upper with
  | zero => rfl
  | succ fuel ih => simp only [searchSingle, findSingle, ih]

theorem searchRange_eq (keys : List Nat) (c fuel lower upper : Nat) :
    searchRange keys c fuel lower upper = findRange (at_ keys) c fuel lower upper := by
  induction fuel generalizing lower upper with
  | zero => rfl
  | succ fuel ih => simp only [searchRange, findRange, ih]

/-- `trans`, on numbers for tables. -/
def readTrans (cs c : Nat) : Nat :=
  let singles := digit (packed singleLengths) cs
  let ranges := digit (packed rangeLengths) cs
  let key i := digit (packed transKeys) (digit (packed keyOffsets) cs + i)
  let behind :=
    (findRange (fun i => key (singles + i)) c ranges 0 ranges).elim ranges id
  let index := (findSingle key c singles 0 singles).elim (singles + behind) id
  digit (packed indicies) (digit (packed indexOffsets) cs + index)

theorem readTrans_eq (cs c : Nat) : readTrans cs c = trans cs c := by
  simp only [readTrans, trans, searchSingle_eq, searchRange_eq, at_drop, digit_table,
    List.mem_cons, true_or, or_true]
  split
  case h_1 mid hsingle => rw [hsingle, Option.elim_some, id]
  case h_2 hsingle =>
    rw [hsingle, Option.elim_none]
    split
    case h_1 mid hrange => rw [hrange, Option.elim_some, id]
    case h_2 hrange => rw [hrange, Option.elim_none]

/-! ## Classes take the same transitions -/

/-- The states of the machine. -/
def states : List Nat := List.range 84

/-- The transition of a class of bytes. -/
@[irreducible] def delta (cs : Nat) (k : Cls) : Nat × List Act :=
  let t := readTrans cs k.rep.toNat
  let acts := actions.drop (digit (packed transActions) t)
  (digit (packed transTargs) t, (acts.tail.take acts.headI).filterMap Act.ofCode)

theorem delta_eq_transition (cs : Nat) (k : Cls) : delta cs k = transition cs k.rep := by
  have hacts : digit (packed transActions) = at_ transActions := digit_table (by simp)
  have htargs : digit (packed transTargs) = at_ transTargs := digit_table (by simp)
  unfold delta transition
  rw [readTrans_eq, hacts, htargs]

theorem trans_gapReps : (states.all fun cs => gapReps.all fun g =>
    (readTrans cs g).beq (readTrans cs (Cls.of (UInt8.ofNat g)).rep.toNat)) = true := by
  decide +kernel

/-- All bytes of a class take the same transitions. -/
theorem transition_eq_delta {cs : Nat} (hcs : cs < 84) (c : UInt8) :
    transition cs c = delta cs (Cls.of c) := by
  obtain ⟨hgap, hmem, hcls⟩ := sameGap_gapOf c.toNat_lt
  have hrow := List.all_eq_true.mp trans_gapReps cs (List.mem_range.mpr hcs)
  have hrep := Nat.eq_of_beq_eq_true (List.all_eq_true.mp hrow _ hmem)
  rw [UInt8.ofNat_toNat] at hcls
  rw [readTrans_eq, readTrans_eq] at hrep
  have htrans : trans cs c.toNat = trans cs (Cls.of c).rep.toNat := by
    rw [trans_congr hgap, hrep, hcls]
  rw [delta_eq_transition]
  simp only [transition, htrans]

end Rubyk.TextCommand
