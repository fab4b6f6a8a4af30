/-
  `Lib.CStream`: reading and writing text with the C library.

  A stream is what is left to read.  `getc` takes a character, `ungetc` puts one back, and
  `fscanf " %i"` skips white space and reads an integer: a sign, then hexadecimal digits
  after `0x`, octal digits after `0`, decimal digits otherwise.  `fprintf " %i"` writes a
  blank and the decimal digits.  The rule is that an integer reads back as it was written
  when something other than a digit follows (`scanInt_printInt`).

  Nothing here is about a particular program.
-/
import Mathlib.Data.List.Basic
import Mathlib.Tactic.IntervalCases

set_option autoImplicit false

namespace Rubyk.Lib.CStream

/-- What is left to read. -/
abbrev Stream := List Char

/-- `getc`: `none` is `EOF`. -/
def getc : Stream → Option Char × Stream
  | [] => (none, [])
  | c :: s => (some c, s)

/-- `ungetc`: putting back `EOF` does nothing. -/
def ungetc : Option Char → Stream → Stream
  | none, s => s
  | some c, s => c :: s

/-- The answer of `getc` in a `char`: the byte 255 becomes `EOF`. -/
def toChar : Option Char → Option Char
  | some c => if c.toNat = 255 then none else some c
  | none => none

/-- `isspace`. -/
def isSpace (c : Char) : Bool := c == ' ' || (9 ≤ c.toNat && c.toNat ≤ 13)

/-- The answer of `fscanf` for one integer. -/
inductive Scanned where
  | eof
  | mismatch
  | value (n : Int)
  deriving DecidableEq, Repr

def isOctal (c : Char) : Bool := '0' ≤ c && c ≤ '7'

def isHexadecimal (c : Char) : Bool :=
  c.isDigit || ('a' ≤ c && c ≤ 'f') || ('A' ≤ c && c ≤ 'F')

def hexadecimalValue (c : Char) : Nat :=
  if c.isDigit then c.toNat - 48 else if 'a' ≤ c then c.toNat - 87 else c.toNat - 55

/-- The digits at the front, and their value. -/
def scanDigits (isDigit : Char → Bool) (value : List Char → Nat) (s : Stream) :
    Option Nat × Stream :=
  match s.takeWhile isDigit with
  | [] => (none, s)
  | digits => (some (value digits), s.dropWhile isDigit)

/-- A number after its sign. -/
def scanNat : Stream → Option Nat × Stream
  | [] => (none, [])
  | c :: s =>
      if c = '0' then
        match s with
        | d :: t =>
            if d = 'x' ∨ d = 'X' then
              scanDigits isHexadecimal
                (fun digits => digits.foldl (fun n d => 16 * n + hexadecimalValue d) 0) t
            else scanDigits isOctal (fun digits => Nat.ofDigitChars 8 digits 0) (c :: s)
        | [] => scanDigits isOctal (fun digits => Nat.ofDigitChars 8 digits 0) (c :: s)
      else scanDigits Char.isDigit (fun digits => Nat.ofDigitChars 10 digits 0) (c :: s)

/-- A number with the sign that was read. -/
def scanned (sign : Int) : Option Nat × Stream → Scanned × Stream
  | (none, s) => (.mismatch, s)
  | (some n, s) => (.value (sign * n), s)

/-- `fscanf " %i"`. -/
def scanInt (s : Stream) : Scanned × Stream :=
  match s.dropWhile isSpace with
  | [] => (.eof, [])
  | c :: t =>
      if c = '-' then scanned (-1) (scanNat t)
      else if c = '+' then scanned 1 (scanNat t)
      else scanned 1 (scanNat (c :: t))

/-- What `fprintf " %i"` writes. -/
def printInt (n : Int) : List Char :=
  if n < 0 then ' ' :: '-' :: Nat.toDigits 10 n.natAbs else ' ' :: Nat.toDigits 10 n.natAbs

/-! ## Reading back -/

variable {s : Stream} {n : Nat}

/-- A character that ends a number. -/
def Ends (s : Stream) : Prop := ∀ c, s.head? = some c → isSpace c = true

theorem isDigit_bounds {c : Char} (h : c.isDigit = true) : 48 ≤ c.toNat ∧ c.toNat ≤ 57 := by
  rw [Char.isDigit, Bool.and_eq_true, decide_eq_true_eq, decide_eq_true_eq] at h
  exact h

theorem not_isDigit_of_isSpace {c : Char} (h : isSpace c = true) : c.isDigit = false := by
  rw [isSpace, Bool.or_eq_true, beq_iff_eq, Bool.and_eq_true, decide_eq_true_eq,
    decide_eq_true_eq] at h
  rcases h with rfl | ⟨-, hhigh⟩
  · rfl
  · by_contra hdigit
    rw [Bool.not_eq_false] at hdigit
    have hlow := (isDigit_bounds hdigit).1
    omega

/-- All digits are taken, and nothing else. -/
theorem scanDigits_append {isDigit : Char → Bool} {value : List Char → Nat} {digits : List Char}
    (hdigits : ∀ c ∈ digits, isDigit c = true) (hne : digits ≠ [])
    (hend : ∀ c, s.head? = some c → isDigit c = false) :
    scanDigits isDigit value (digits ++ s) = (some (value digits), s) := by
  have htake : s.takeWhile isDigit = [] ∧ s.dropWhile isDigit = s := by
    cases s with
    | nil => exact ⟨rfl, rfl⟩
    | cons c s =>
      have hc := hend c rfl
      simp [hc]
  have hfront : (digits ++ s).takeWhile isDigit = digits := by
    rw [List.takeWhile_append_of_pos hdigits, htake.1, List.append_nil]
  have hback : (digits ++ s).dropWhile isDigit = s := by
    rw [List.dropWhile_append_of_pos hdigits, htake.2]
  unfold scanDigits
  rw [hfront, hback]
  cases digits with
  | nil => exact absurd rfl hne
  | cons c cs => rfl

/-- The first digit of a number that is not zero. -/
theorem head_toDigits_ne (hn : 0 < n) : (Nat.toDigits 10 n).head? ≠ some '0' := by
  induction n using Nat.strongRecOn with
  | ind n ih =>
    rcases Nat.lt_or_ge n 10 with hlt | hge
    · rw [Nat.toDigits_of_lt_base hlt]
      interval_cases n <;> decide
    · rw [Nat.toDigits_of_base_le (by decide) hge,
        List.head?_append_of_ne_nil _ Nat.toDigits_ne_nil]
      exact ih (n / 10) (by omega) (by omega)

theorem not_isOctal_of_isSpace {c : Char} (h : isSpace c = true) : isOctal c = false := by
  by_contra hoctal
  rw [Bool.not_eq_false, isOctal, Bool.and_eq_true, decide_eq_true_eq, decide_eq_true_eq] at hoctal
  have hdigit : c.isDigit = true := by
    rw [Char.isDigit, Bool.and_eq_true, decide_eq_true_eq, decide_eq_true_eq]
    have hlast : '7' ≤ '9' := by decide
    have hhigh : c ≤ '9' := Char.le_trans hoctal.2 hlast
    exact ⟨hoctal.1, hhigh⟩
  rw [not_isDigit_of_isSpace h] at hdigit
  cases hdigit

/-- A number is followed by white space, or by nothing. -/
theorem scanNat_toDigits (n : Nat) (h : Ends s) :
    scanNat (Nat.toDigits 10 n ++ s) = (some n, s) := by
  rcases Nat.eq_zero_or_pos n with rfl | hpos
  · rw [Nat.toDigits_zero]
    have hoctal : scanDigits isOctal (fun digits => Nat.ofDigitChars 8 digits 0) (['0'] ++ s) =
        (some 0, s) :=
      scanDigits_append (fun c hc => by rw [List.mem_singleton.mp hc]; rfl) (by simp)
        fun c hc => not_isOctal_of_isSpace (h c hc)
    cases s with
    | nil => exact hoctal
    | cons d t =>
      have hd := h d rfl
      have hx : ¬ (d = 'x' ∨ d = 'X') := by
        rintro (rfl | rfl)
        · cases hd
        · cases hd
      rw [List.singleton_append, scanNat, if_pos rfl, if_neg hx]
      exact hoctal
  · have hdigits : ∀ c ∈ Nat.toDigits 10 n, c.isDigit = true := fun c hc =>
      Nat.isDigit_of_mem_toDigits (by decide) (by decide) hc
    have hdecimal : scanDigits Char.isDigit (fun digits => Nat.ofDigitChars 10 digits 0)
        (Nat.toDigits 10 n ++ s) = _ :=
      scanDigits_append hdigits Nat.toDigits_ne_nil fun c hc => not_isDigit_of_isSpace (h c hc)
    have hhead := head_toDigits_ne hpos
    cases hall : Nat.toDigits 10 n with
    | nil => exact absurd hall Nat.toDigits_ne_nil
    | cons c cs =>
      have hc : c ≠ '0' := by
        rintro rfl
        exact hhead (by rw [hall]; rfl)
      have hscan : scanNat (c :: (cs ++ s)) =
          scanDigits Char.isDigit (fun digits => Nat.ofDigitChars 10 digits 0)
            (c :: (cs ++ s)) := by
        simp only [scanNat, if_neg hc]
      rw [List.cons_append, hscan, ← List.cons_append, ← hall, hdecimal,
        Nat.ofDigitChars_ten_toDigits]

/-- An integer reads back as it was written. -/
theorem scanInt_printInt (n : Int) (h : Ends s) :
    scanInt (printInt n ++ s) = (.value n, s) := by
  have hscan := scanNat_toDigits n.natAbs h
  unfold printInt
  split
  · next hneg =>
    have hvalue : (-1) * (n.natAbs : Int) = n := by omega
    rw [List.cons_append, List.cons_append, scanInt, List.dropWhile_cons_of_pos rfl,
      List.dropWhile_cons_of_neg (by decide)]
    simp only [if_true, hscan, scanned, hvalue]
  · next hpos =>
    have hvalue : 1 * (n.natAbs : Int) = n := by omega
    have hdigits : ∀ c ∈ Nat.toDigits 10 n.natAbs, c.isDigit = true := fun c hc =>
      Nat.isDigit_of_mem_toDigits (by decide) (by decide) hc
    rw [List.cons_append, scanInt, List.dropWhile_cons_of_pos rfl]
    cases hall : Nat.toDigits 10 n.natAbs with
    | nil => exact absurd hall Nat.toDigits_ne_nil
    | cons c cs =>
      have hc : c.isDigit = true := hdigits c (by rw [hall]; exact List.mem_cons_self)
      have hspace : ¬ isSpace c = true := fun h' => by
        rw [not_isDigit_of_isSpace h'] at hc
        cases hc
      have hminus : c ≠ '-' := by
        rintro rfl
        cases hc
      have hplus : c ≠ '+' := by
        rintro rfl
        cases hc
      rw [List.cons_append, List.dropWhile_cons_of_neg hspace]
      simp only [if_neg hminus, if_neg hplus]
      rw [← List.cons_append, ← hall, hscan]
      simp only [scanned, hvalue]

/-- What an integer is written as starts with a blank. -/
theorem exists_printInt (n : Int) : ∃ t, printInt n = ' ' :: t := by
  unfold printInt
  split
  · exact ⟨_, rfl⟩
  · exact ⟨_, rfl⟩

end Rubyk.Lib.CStream
