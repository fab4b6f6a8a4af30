/-
  TextCommand/Tables.lean --- the state machine of `src/core/text_command.cpp`.

  `TextCommand::parse` is generated: a machine whose transitions are found by binary
  search in the tables below, which are the arrays of the source.  `transition` is
  the code between the labels `_resume` and `_match`, with the transition it selects.

  A `char` is a signed byte.  Keys and bytes are compared as `signed`, which keeps
  the order of the signed values.
-/
import Mathlib.Data.List.Basic

set_option autoImplicit false

namespace Rubyk.TextCommand

/-! ## Tables -/

/-- `_text_command_actions`: lists of action codes, each after its length. -/
def actions : List Nat :=
  [0, 1, 0, 1, 1, 1, 3, 1, 4, 1, 5, 1, 11, 1, 13, 1, 14, 1, 15, 2, 0, 1, 2, 2, 6, 2,
   2, 7, 2, 2, 8, 2, 2, 9, 2, 2, 10, 2, 5, 1, 2, 11, 13, 2, 12, 13, 3, 0, 5, 1, 3, 2,
   9, 13, 3, 2, 10, 13, 3, 3, 12, 13, 3, 5, 0, 1]

/-- `_text_command_key_offsets`. -/
def keyOffsets : List Nat :=
  [0, 0, 8, 11, 12, 26, 30, 35, 39, 47, 58, 60, 64, 67, 75, 77, 77, 79, 86, 90, 93,
   95, 101, 101, 109, 117, 119, 126, 133, 141, 141, 143, 143, 145, 154, 163, 176, 182,
   194, 198, 209, 220, 232, 233, 239, 251, 255, 266, 277, 289, 300, 302, 306, 309,
   317, 319, 319, 321, 328, 329, 331, 337, 337, 345, 353, 355, 362, 369, 377, 377,
   379, 379, 381, 390, 399, 412, 416, 427, 431, 432, 443, 457, 458, 466]

/-- `_text_command_trans_keys`. -/
def transKeys : List Nat :=
  [9, 10, 32, 35, 46, 47, 97, 122, 9, 10, 32, 10, 9, 10, 32, 40, 61, 95, 124, 126, 47,
   57, 65, 90, 97, 122, 9, 32, 61, 124, 9, 32, 62, 65, 90, 9, 32, 65, 90, 40, 95, 48,
   57, 65, 90, 97, 122, 34, 39, 41, 43, 45, 46, 47, 48, 57, 97, 122, 34, 92, 9, 32,
   41, 44, 9, 32, 44, 9, 32, 34, 39, 43, 45, 48, 57, 39, 92, 48, 57, 9, 32, 41, 44,
   46, 48, 57, 9, 10, 32, 35, 9, 32, 35, 48, 57, 9, 32, 41, 44, 48, 57, 58, 95, 47,
   57, 65, 90, 97, 122, 9, 32, 34, 39, 43, 45, 48, 57, 34, 92, 9, 32, 41, 46, 47, 97,
   122, 9, 32, 41, 46, 47, 97, 122, 58, 95, 46, 57, 65, 90, 97, 122, 39, 92, 48, 57,
   9, 32, 41, 46, 47, 48, 57, 97, 122, 47, 58, 95, 48, 57, 65, 90, 97, 122, 9, 32, 41,
   46, 47, 58, 95, 48, 57, 65, 90, 97, 122, 9, 32, 46, 47, 97, 122, 9, 10, 32, 35, 95,
   126, 47, 57, 65, 90, 97, 122, 46, 47, 97, 122, 9, 10, 32, 35, 95, 47, 57, 65, 90,
   97, 122, 9, 10, 32, 35, 95, 46, 57, 65, 90, 97, 122, 9, 10, 32, 35, 95, 126, 46,
   57, 65, 90, 97, 122, 124, 9, 32, 46, 47, 97, 122, 9, 10, 32, 35, 95, 126, 47, 57,
   65, 90, 97, 122, 46, 47, 97, 122, 9, 10, 32, 35, 95, 47, 57, 65, 90, 97, 122, 9,
   10, 32, 35, 95, 46, 57, 65, 90, 97, 122, 9, 10, 32, 35, 95, 126, 46, 57, 65, 90,
   97, 122, 34, 39, 41, 43, 45, 46, 47, 48, 57, 97, 122, 34, 92, 9, 32, 41, 44, 9, 32,
   44, 9, 32, 34, 39, 43, 45, 48, 57, 39, 92, 48, 57, 9, 32, 41, 44, 46, 48, 57, 10,
   48, 57, 9, 32, 41, 44, 48, 57, 58, 95, 47, 57, 65, 90, 97, 122, 9, 32, 34, 39, 43,
   45, 48, 57, 34, 92, 9, 32, 41, 46, 47, 97, 122, 9, 32, 41, 46, 47, 97, 122, 58, 95,
   46, 57, 65, 90, 97, 122, 39, 92, 48, 57, 9, 32, 41, 46, 47, 48, 57, 97, 122, 47,
   58, 95, 48, 57, 65, 90, 97, 122, 9, 32, 41, 46, 47, 58, 95, 48, 57, 65, 90, 97,
   122, 46, 47, 97, 122, 9, 32, 61, 95, 124, 47, 57, 65, 90, 97, 122, 9, 32, 61, 124,
   62, 9, 32, 61, 95, 124, 46, 57, 65, 90, 97, 122, 9, 10, 32, 40, 61, 95, 124, 126,
   46, 57, 65, 90, 97, 122, 10, 9, 10, 32, 35, 46, 47, 97, 122, 0]

/-- `_text_command_single_lengths`. -/
def singleLengths : List Nat :=
  [0, 6, 3, 1, 8, 4, 3, 2, 2, 7, 2, 4, 3, 6, 2, 0, 0, 5, 4, 3, 0, 4, 0, 2, 6, 2, 5, 5,
   2, 0, 2, 0, 0, 5, 3, 7, 4, 6, 2, 5, 5, 6, 1, 4, 6, 2, 5, 5, 6, 7, 2, 4, 3, 6, 2, 0,
   0, 5, 1, 0, 4, 0, 2, 6, 2, 5, 5, 2, 0, 2, 0, 0, 5, 3, 7, 2, 5, 4, 1, 5, 8, 1, 6, 0]

/-- `_text_command_range_lengths`. -/
def rangeLengths : List Nat :=
  [0, 1, 0, 0, 3, 0, 1, 1, 3, 2, 0, 0, 0, 1, 0, 0, 1, 1, 0, 0, 1, 1, 0, 3, 1, 0, 1, 1,
   3, 0, 0, 0, 1, 2, 3, 3, 1, 3, 1, 3, 3, 3, 0, 1, 3, 1, 3, 3, 3, 2, 0, 0, 0, 1, 0, 0,
   1, 1, 0, 1, 1, 0, 3, 1, 0, 1, 1, 3, 0, 0, 0, 1, 2, 3, 3, 1, 3, 0, 0, 3, 3, 0, 1, 0]

/-- `_text_command_index_offsets`. -/
def indexOffsets : List Nat :=
  [0, 0, 8, 12, 14, 26, 31, 36, 40, 46, 56, 59, 64, 68, 76, 79, 80, 82, 89, 94, 98,
   100, 106, 107, 113, 121, 124, 131, 138, 144, 145, 148, 149, 151, 159, 166, 177,
   183, 193, 197, 206, 215, 225, 227, 233, 243, 247, 256, 265, 275, 285, 288, 293,
   297, 305, 308, 309, 311, 318, 320, 322, 328, 329, 335, 343, 346, 353, 360, 366,
   367, 370, 371, 373, 381, 388, 399, 403, 412, 417, 419, 428, 440, 442, 450]

/-- `_text_command_indicies`. -/
def indicies : List Nat :=
  [1, 2, 1, 3, 4, 5, 4, 0, 1, 2, 1, 0, 2, 3, 6, 7, 6, 8, 9, 4, 10, 11, 4, 4, 4, 0, 12,
   12, 13, 14, 0, 15, 15, 16, 17, 0, 15, 15, 17, 0, 18, 17, 17, 17, 17, 0, 19, 20, 21,
   22, 22, 23, 24, 25, 23, 0, 27, 28, 26, 29, 29, 30, 31, 0, 32, 32, 33, 0, 33, 33,
   19, 20, 22, 22, 25, 0, 27, 35, 34, 34, 25, 0, 29, 29, 30, 31, 36, 25, 0, 37, 38,
   37, 39, 0, 40, 40, 3, 0, 41, 0, 29, 29, 30, 31, 41, 0, 26, 42, 23, 23, 23, 23, 0,
   42, 42, 43, 44, 45, 45, 46, 0, 48, 49, 47, 50, 50, 30, 51, 52, 51, 0, 53, 53, 21,
   23, 24, 23, 0, 42, 23, 23, 23, 23, 0, 47, 48, 55, 54, 54, 46, 0, 50, 50, 30, 56,
   52, 46, 51, 0, 23, 42, 23, 57, 23, 23, 0, 50, 50, 30, 51, 58, 42, 23, 57, 23, 59,
   0, 16, 16, 60, 61, 60, 0, 62, 63, 62, 64, 60, 65, 60, 60, 60, 0, 66, 67, 66, 0, 62,
   63, 62, 64, 66, 66, 66, 66, 0, 62, 63, 62, 64, 66, 66, 66, 66, 0, 62, 63, 62, 64,
   60, 65, 60, 60, 60, 0, 68, 0, 68, 68, 69, 70, 69, 0, 71, 72, 71, 73, 69, 74, 69,
   69, 69, 0, 75, 76, 75, 0, 71, 72, 71, 73, 75, 75, 75, 75, 0, 71, 72, 71, 73, 75,
   75, 75, 75, 0, 71, 72, 71, 73, 69, 74, 69, 69, 69, 0, 77, 78, 79, 80, 80, 81, 82,
   83, 81, 0, 85, 86, 84, 87, 87, 88, 89, 0, 90, 90, 91, 0, 91, 91, 77, 78, 80, 80,
   83, 0, 85, 93, 92, 92, 83, 0, 87, 87, 88, 89, 94, 83, 0, 95, 0, 96, 0, 87, 87, 88,
   89, 96, 0, 84, 97, 81, 81, 81, 81, 0, 97, 97, 98, 99, 100, 100, 101, 0, 103, 104,
   102, 105, 105, 88, 106, 107, 106, 0, 108, 108, 79, 81, 82, 81, 0, 97, 81, 81, 81,
   81, 0, 102, 103, 110, 109, 109, 101, 0, 105, 105, 88, 111, 107, 101, 106, 0, 81,
   97, 81, 112, 81, 81, 0, 105, 105, 88, 106, 113, 97, 81, 112, 81, 114, 0, 115, 116,
   115, 0, 117, 117, 118, 115, 119, 115, 115, 115, 0, 120, 120, 121, 14, 0, 16, 0,
   117, 117, 118, 115, 119, 115, 115, 115, 0, 6, 7, 6, 8, 9, 4, 10, 11, 4, 4, 4, 0,
   123, 122, 1, 2, 1, 3, 4, 5, 4, 0, 124, 0]

/-- `_text_command_trans_targs`. -/
def transTargs : List Nat :=
  [0, 2, 82, 3, 4, 80, 5, 82, 49, 6, 42, 75, 5, 6, 42, 7, 36, 8, 9, 10, 14, 18, 16,
   23, 28, 17, 10, 11, 22, 12, 18, 13, 12, 13, 14, 15, 20, 19, 82, 3, 19, 21, 24, 25,
   30, 32, 33, 25, 26, 29, 27, 23, 28, 27, 30, 31, 34, 35, 28, 23, 37, 41, 19, 82, 3,
   38, 39, 40, 43, 44, 48, 19, 82, 3, 45, 46, 47, 50, 54, 58, 56, 62, 67, 57, 50, 51,
   61, 52, 58, 53, 52, 53, 54, 55, 59, 82, 60, 63, 64, 69, 71, 72, 64, 65, 68, 66, 62,
   67, 66, 69, 70, 73, 74, 67, 62, 76, 79, 77, 78, 42, 77, 78, 81, 83, 0]

/-- `_text_command_trans_actions`. -/
def transActions : List Nat :=
  [15, 0, 13, 0, 1, 1, 22, 58, 5, 22, 22, 22, 0, 0, 0, 0, 0, 1, 7, 3, 3, 0, 19, 19,
   19, 19, 19, 3, 19, 37, 9, 37, 3, 3, 19, 19, 19, 11, 40, 11, 0, 19, 3, 3, 3, 19, 19,
   19, 3, 19, 37, 62, 62, 3, 19, 19, 46, 19, 46, 46, 1, 1, 31, 50, 31, 28, 1, 1, 0, 1,
   1, 34, 54, 34, 28, 1, 1, 3, 3, 0, 19, 19, 19, 19, 19, 3, 19, 37, 9, 37, 3, 3, 19,
   19, 19, 43, 19, 3, 3, 3, 19, 19, 19, 3, 19, 37, 62, 62, 3, 19, 19, 46, 19, 46, 46,
   1, 1, 25, 25, 25, 0, 0, 0, 17, 0]

/-- `text_command_start`. -/
def start : Nat := 1

/-- `text_command_en_eat_line`. -/
def enEatLine : Nat := 81

/-- `text_command_en_main`. -/
def enMain : Nat := 1

/-! ## Actions -/

/-- The actions embedded in the grammar, in the order of their codes. -/
inductive Act where
  | a
  | params
  | setVar
  | setMethod
  | setClass
  | setValue
  | setFrom
  | setFromPort
  | setToPort
  | createLink
  | removeLink
  | createInstance
  | executeCommand
  | prompt
  | error
  | gotoMain
  deriving DecidableEq, Repr

/-- The `case` labels of the action switch. -/
def Act.ofCode : Nat → Option Act
  | 0 => some .a
  | 1 => some .params
  | 2 => some .setVar
  | 3 => some .setMethod
  | 4 => some .setClass
  | 5 => some .setValue
  | 6 => some .setFrom
  | 7 => some .setFromPort
  | 8 => some .setToPort
  | 9 => some .createLink
  | 10 => some .removeLink
  | 11 => some .createInstance
  | 12 => some .executeCommand
  | 13 => some .prompt
  | 14 => some .error
  | 15 => some .gotoMain
  | _ => none

/-! ## Finding the transition -/

/-- An element of a table. -/
def at_ (table : List Nat) (i : Nat) : Nat := table.getD i 0

/-- A byte or a key, for comparison as a signed `char`. -/
def signed (c : Nat) : Nat := (c + 128) % 256

/-- The search for a single key, between `lower` and `upper` (one past `_upper`). -/
def searchSingle (keys : List Nat) (c : Nat) : Nat → Nat → Nat → Option Nat
  | 0, _, _ => none
  | fuel + 1, lower, upper =>
      bif upper.ble lower then none
      else
        let mid := lower + (upper - 1 - lower) / 2
        bif (signed c).blt (signed (at_ keys mid)) then searchSingle keys c fuel lower mid
        else bif (signed (at_ keys mid)).blt (signed c) then
          searchSingle keys c fuel (mid + 1) upper
        else some mid

/-- The search for a range of keys, which are pairs of lowest and highest key. -/
def searchRange (keys : List Nat) (c : Nat) : Nat → Nat → Nat → Option Nat
  | 0, _, _ => none
  | fuel + 1, lower, upper =>
      bif upper.ble lower then none
      else
        let mid := lower + (upper - 1 - lower) / 2
        bif (signed c).blt (signed (at_ keys (2 * mid))) then
          searchRange keys c fuel lower mid
        else bif (signed (at_ keys (2 * mid + 1))).blt (signed c) then
          searchRange keys c fuel (mid + 1) upper
        else some mid

/-- The index of the transition out of state `cs` on byte `c`. -/
def trans (cs c : Nat) : Nat :=
  let keys := transKeys.drop (at_ keyOffsets cs)
  let singles := at_ singleLengths cs
  let ranges := at_ rangeLengths cs
  let index :=
    match searchSingle keys c singles 0 singles with
    | some mid => mid
    | none =>
        match searchRange (keys.drop singles) c ranges 0 ranges with
        | some mid => singles + mid
        | none => singles + ranges
  at_ (indicies.drop (at_ indexOffsets cs)) index

/-- The target state and the actions of the transition out of `cs` on `c`. -/
def transition (cs : Nat) (c : UInt8) : Nat × List Act :=
  let t := trans cs c.toNat
  let acts := actions.drop (at_ transActions t)
  (at_ transTargs t, (acts.tail.take acts.headI).filterMap Act.ofCode)

end Rubyk.TextCommand
