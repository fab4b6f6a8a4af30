/-
  ObjectsOff/Cabox.lean --- `Cabox`, `src/objects_off/Cabox.cpp`: the signals of twelve
  sensors on a serial line.

  A frame is two bytes 255 and twelve values, high byte first.  Between frames anything
  can come that does not look like the two bytes.  The object turns each value into a
  number, subtracts what the sensor shows at rest, and writes it into a `Buffer`.

  AT REST.  `offset` asks for the next complete frame to be taken for the rest position.
  The object adds that frame, as it was decoded, to the offsets that it was decoded with.
  The result is the frame as it was sent (`decodes_segments`).

  REALS.  Numbers are those of an ordered field: nothing is rounded.  The rate that `spy`
  prints is left out.
-/
import Mathlib.Algebra.Field.Defs
import Mathlib.Algebra.Ring.Int.Defs
import Mathlib.Data.List.Induction
import Mathlib.Order.Lattice
import Rubyk.Core.BufferStream

set_option autoImplicit false

namespace Rubyk

open Lib

/-- `Cabox`. -/
structure Cabox (α : Type) where
  /-- `mBuffer`, `mVector` and `mIndex` -/
  stream : BufferStream α
  mState : Int
  mHigh : Nat
  mOffset : List α
  mOffsetOnFull : Bool
  mFindHighestValue : α
  mFindHighestDirection : Nat
  mHighestValue : α
  mHighestDirection : Nat

namespace Cabox

variable {α : Type} [Inhabited α] [Field α] [LinearOrder α]

/-- A signal in units of acceleration. -/
def signal (high low : Nat) : α :=
  ((high * 256 + low : Nat) : α) / 1024 * (3300 - 1650) / 200

/-- `val < 0 ? -val : val`. -/
def magnitude (val : α) : α := if val < 0 then -val else val

/-- The search for the highest value: value and direction. -/
def higher (index : Nat) (val : α) (found : α × Nat) : α × Nat :=
  if found.1 < magnitude val then (magnitude val, if val < 0 then index + 6 else index) else found

/-- `init`, on memory that holds anything. -/
def init (memory : Nat × Nat) (onFull : Bool) : Option (Cabox α) := do
  let b ← (Buffer.unset memory.1 memory.2).setSizes 1 12
  let (row, b) ← b.advance
  some
    { stream := ⟨b, row, 0⟩
      mState := -3
      mHigh := 0
      mOffset := List.replicate 12 0
      mOffsetOnFull := onFull
      mFindHighestValue := 0
      mFindHighestDirection := 0
      mHighestValue := 0
      mHighestDirection := 0 }

/-- `set`, with the parameter `buffer`. -/
def set (x : Cabox α) : Option Nat → Option (Cabox α)
  | none => some x
  | some size => do
      let b ← x.stream.mBuffer.setSizes (if size < 1 then 1 else size) 12
      let (row, b) ← b.advance
      some { x with
        stream := ⟨b, row, x.stream.mIndex⟩
        mState := if row.isSome then -3 else x.mState }

/-- A new object. -/
def start (memory : Nat × Nat) (onFull : Bool) (buffer : Option Nat) : Option (Cabox α) := do
  let x ← init memory onFull
  x.set buffer

/-- A value: the two bytes are here. -/
def receiveValue (x : Cabox α) (c : Nat) : Option (Cabox α) := do
  let offset ← x.mOffset[x.stream.mIndex]?
  let val := signal x.mHigh c - offset
  let vector ← x.stream.mVector
  let b ← x.stream.mBuffer.write (vector + x.stream.mIndex) [val]
  let (value, direction) :=
    higher x.stream.mIndex val (x.mFindHighestValue, x.mFindHighestDirection)
  if 12 ≤ x.stream.mIndex + 1 then
    let row ← loads b.mBuffer.data vector 12
    let (vector, b) ← b.advance
    some { x with
      stream := ⟨b, vector, 0⟩
      mState := -3
      mOffset := if x.mOffsetOnFull then List.zipWith (· + ·) x.mOffset row else x.mOffset
      mOffsetOnFull := false
      mFindHighestValue := 0
      mFindHighestDirection := 0
      mHighestValue := value
      mHighestDirection := direction }
  else
    some { x with
      stream := ⟨b, vector, x.stream.mIndex + 1⟩
      mState := -1
      mFindHighestValue := value
      mFindHighestDirection := direction }

/-- The loop of `bang`, once. -/
def receive (x : Cabox α) (c : Nat) : Option (Cabox α) :=
  if x.mState = -3 then some (if c = 255 then { x with mState := -2 } else x)
  else if x.mState = -2 then
    some (if c = 255 then { x with mState := -1 } else { x with mState := -3 })
  else if x.mState = -1 then some { x with mHigh := c, mState := 0 }
  else x.receiveValue c

/-- `offset` and `initial_offset`. -/
def offset (x : Cabox α) : Cabox α := { x with mOffsetOnFull := true }

/-- The next byte completes a value, which is the last one of its frame. -/
def Completes (x : Cabox α) : Prop :=
  x.mState ≠ -3 ∧ x.mState ≠ -2 ∧ x.mState ≠ -1 ∧ 12 ≤ x.stream.mIndex + 1

instance (x : Cabox α) : Decidable x.Completes := by unfold Completes; infer_instance

/-- The loop of `bang` on the bytes there are, and whether there is new data. -/
def receiveAll (x : Cabox α) : List Nat → Option (Bool × Cabox α)
  | [] => some (false, x)
  | c :: cs => do
      let y ← x.receive c
      let (newData, z) ← receiveAll y cs
      some (decide x.Completes || newData, z)

/-- What a `bang` sends: direction and value of the highest signal, and the window. -/
def sent (x : Cabox α) : Nat × α × Option (List (List α)) :=
  (x.mHighestDirection, x.mHighestValue, x.stream.mBuffer.matrix)

/-- `bang`. -/
def bang (x : Cabox α) (bytes : List Nat) :
    Option (Option (Nat × α × Option (List (List α))) × Cabox α) := do
  let (newData, x) ← x.receiveAll bytes
  some (if newData then some x.sent else none, x)

/-- A call of the object. -/
inductive Call where
  | bang (bytes : List Nat)
  | offset

/-- One call. -/
def call (x : Cabox α) : Call → Option (Cabox α)
  | .bang bytes => (x.bang bytes).map Prod.snd
  | .offset => some x.offset

/-! ## Frames -/

/-- What happens in calls. -/
inductive Event where
  | byte (c : Nat)
  | offset
  deriving DecidableEq, Repr

def eventsOf (calls : List Call) : List Event :=
  calls.flatMap fun
    | .bang bytes => bytes.map .byte
    | .offset => [.offset]

/-- The bytes that come. -/
def bytesOf (events : List Event) : List Nat :=
  events.filterMap fun
    | .byte c => some c
    | .offset => none

/-- Bytes between frames: two bytes 255 do not follow each other, and the last one is
another byte. -/
inductive Idle : List Nat → Prop
  | nothing : Idle []
  | other {c : Nat} {rest : List Nat} : c ≠ 255 → Idle rest → Idle (c :: rest)
  | single {c : Nat} {rest : List Nat} : c ≠ 255 → Idle rest → Idle (255 :: c :: rest)

/-- The two bytes that begin a frame, and values. -/
def frame (pairs : List (Nat × Nat)) : List Nat :=
  [255, 255] ++ pairs.flatMap fun pair => [pair.1, pair.2]

/-- A frame that is not complete, with what came before it. -/
inductive Begun : List Nat → Prop
  | idle {gap : List Nat} : Idle gap → Begun gap
  | first {gap : List Nat} : Idle gap → Begun (gap ++ [255])
  | values {gap : List Nat} {pairs : List (Nat × Nat)} : Idle gap → pairs.length < 12 →
      Begun (gap ++ frame pairs)
  | high {gap : List Nat} {pairs : List (Nat × Nat)} (c : Nat) : Idle gap → pairs.length < 12 →
      Begun (gap ++ (frame pairs ++ [c]))

/-- A frame with what came before it, and calls of `offset` anywhere before its last byte. -/
structure Segment where
  gap : List Nat
  /-- all values but the last one -/
  pairs : List (Nat × Nat)
  /-- the last value -/
  high : Nat
  low : Nat
  /-- what happens before the last byte -/
  events : List Event
  idle : Idle gap
  length : pairs.length = 11
  bytes : bytesOf events = gap ++ (frame pairs ++ [high])

namespace Segment

/-- What happens. -/
def all (s : Segment) : List Event := s.events ++ [.byte s.low]

/-- `offset` was called. -/
def calibrates (s : Segment) : Bool := s.events.contains .offset

/-- The signals. -/
def signals (α : Type) [Field α] (s : Segment) : List α :=
  (s.pairs ++ [(s.high, s.low)]).map fun pair => signal pair.1 pair.2

end Segment

/-- The decoded frames: what each signal differs from rest.  The frames that calibrate are the
ones at rest from then on.  `flag` says that `offset` was called before. -/
def decoded : Bool → List α → List Segment → List (List α)
  | _, _, [] => []
  | flag, rest, s :: ss =>
      List.zipWith (· - ·) (s.signals α) rest ::
        decoded false (if flag || s.calibrates then s.signals α else rest) ss

/-- The highest value of a row, and its direction. -/
def highest (row : List α) : α × Nat :=
  row.zipIdx.foldl (fun found val => higher val.2 val.1 found) (0, 0)

theorem Idle.snoc_other {gap : List Nat} (h : Idle gap) {c : Nat} (hc : c ≠ 255) :
    Idle (gap ++ [c]) := by
  induction h with
  | nothing => exact .other hc .nothing
  | other hd _ ih => exact .other hd ih
  | single hd _ ih => exact .single hd ih

theorem Idle.snoc_single {gap : List Nat} (h : Idle gap) {c : Nat} (hc : c ≠ 255) :
    Idle (gap ++ [255, c]) := by
  induction h with
  | nothing => exact .single hc .nothing
  | other hd _ ih => exact .other hd ih
  | single hd _ ih => exact .single hd ih

/-- Whatever happens, it is a sequence of frames and the beginning of one more. -/
theorem exists_segments (events : List Event) :
    ∃ (segments : List Segment) (rest : List Event),
      events = segments.flatMap Segment.all ++ rest ∧ Begun (bytesOf rest) := by
  induction events using List.reverseRecOn with
  | nil => exact ⟨[], [], rfl, .idle .nothing⟩
  | append_singleton events event ih =>
    obtain ⟨segments, rest, rfl, hrest⟩ := ih
    cases event with
    | offset =>
      refine ⟨segments, rest ++ [.offset], List.append_assoc _ _ _, ?_⟩
      simpa [bytesOf] using hrest
    | byte c =>
      have hbytes : bytesOf (rest ++ [.byte c]) = bytesOf rest ++ [c] := by simp [bytesOf]
      have hmore (h : Begun (bytesOf rest ++ [c])) :
          ∃ (segments' : List Segment) (rest' : List Event),
            segments.flatMap Segment.all ++ rest ++ [.byte c] =
              segments'.flatMap Segment.all ++ rest' ∧ Begun (bytesOf rest') :=
        ⟨segments, rest ++ [.byte c], List.append_assoc _ _ _, hbytes ▸ h⟩
      generalize hgot : bytesOf rest = got at hrest hmore
      cases hrest with
      | idle hidle =>
        by_cases hc : c = 255
        · exact hmore (hc ▸ .first hidle)
        · exact hmore (.idle (hidle.snoc_other hc))
      | first hidle =>
        rw [List.append_assoc] at hmore
        by_cases hc : c = 255
        · have hframe : [255] ++ [c] = frame [] := by rw [hc]; rfl
          rw [hframe] at hmore
          exact hmore (.values hidle (by decide))
        · exact hmore (.idle (hidle.snoc_single hc))
      | values hidle hshort =>
        rw [List.append_assoc] at hmore
        exact hmore (.high c hidle hshort)
      | @high gap pairs d hidle hshort =>
        rcases Nat.lt_or_eq_of_le (Nat.succ_le_of_lt hshort) with hless | hfull
        · have hvalue : gap ++ (frame pairs ++ [d]) ++ [c] = gap ++ frame (pairs ++ [(d, c)]) := by
            simp [frame]
          rw [hvalue] at hmore
          exact hmore (.values hidle (by simpa using hless))
        · refine ⟨segments ++ [⟨gap, pairs, d, c, rest, hidle, by omega, hgot⟩], [], ?_,
            .idle .nothing⟩
          simp [Segment.all]

/-! ## Inside a frame -/

variable {x y : Cabox α} {W : Nat} {done row : List α}

/-- Between two bytes: complete rows `done` and the beginning `row` of the next one. -/
structure Partway (x : Cabox α) (W : Nat) (done row : List α) : Prop where
  fills : x.stream.Fills W 12 (fun i => ((done ++ row)[i]?).getD 0) (done ++ row).length
  offsets : x.mOffset.length = 12
  complete : done.length % 12 = 0
  short : row.length < 12
  found : (x.mFindHighestValue, x.mFindHighestDirection) = highest row

/-- What only the end of a frame changes. -/
structure SameFrame (x y : Cabox α) : Prop where
  offset : y.mOffset = x.mOffset
  onFull : y.mOffsetOnFull = x.mOffsetOnFull
  highestValue : y.mHighestValue = x.mHighestValue
  highestDirection : y.mHighestDirection = x.mHighestDirection

omit [Inhabited α] [Field α] [LinearOrder α] in
theorem SameFrame.trans {z : Cabox α} (h : SameFrame x y) (h' : SameFrame y z) : SameFrame x z :=
  ⟨h'.offset.trans h.offset, h'.onFull.trans h.onFull, h'.highestValue.trans h.highestValue,
    h'.highestDirection.trans h.highestDirection⟩

omit [Inhabited α] in
theorem Partway.index (h : Partway x W done row) : x.stream.mIndex = row.length := by
  have hdone := h.complete
  have hrow := h.short
  rw [h.fills.index, List.length_append]
  omega

omit [Inhabited α] in
theorem highest_append (row : List α) (val : α) :
    highest (row ++ [val]) = higher row.length val (highest row) := by
  simp [highest, List.zipIdx_append]

omit [Inhabited α] in
/-- The highest value is the greatest magnitude, and the direction says where it is. -/
theorem highest_eq_magnitude (row : List α) :
    (∀ val ∈ row, magnitude val ≤ (highest row).1) ∧
    (highest row = (0, 0) ∨ ∃ i val, row[i]? = some val ∧
      highest row = (magnitude val, if val < 0 then i + 6 else i)) := by
  induction row using List.reverseRecOn with
  | nil => exact ⟨by simp, Or.inl rfl⟩
  | append_singleton row val ih =>
    obtain ⟨hle, hfound⟩ := ih
    rw [highest_append, higher]
    split
    · rename_i hlt
      refine ⟨fun v hv => ?_, Or.inr ⟨row.length, val, List.getElem?_concat_length, rfl⟩⟩
      rcases List.mem_append.mp hv with hv | hv
      · exact (hle v hv).trans hlt.le
      · exact (List.mem_singleton.mp hv).symm ▸ le_refl (magnitude val)
    · rename_i hge
      refine ⟨fun v hv => ?_, ?_⟩
      · rcases List.mem_append.mp hv with hv | hv
        · exact hle v hv
        · exact (List.mem_singleton.mp hv).symm ▸ not_lt.mp hge
      · rcases hfound with hzero | ⟨i, v, hv, hfound⟩
        · exact Or.inl hzero
        · exact Or.inr ⟨i, v, List.getElem?_append_left (List.getElem?_eq_some_iff.mp hv).1 ▸ hv,
            hfound⟩

omit [Inhabited α] in
/-- The buffer is ready for another value. -/
theorem Partway.fills_next (h : Partway x W done row) (val : α) :
    x.stream.Fills W 12 (fun i => ((done ++ (row ++ [val]))[i]?).getD 0) (done ++ row).length := by
  refine h.fills.congr fun i hi => ?_
  rw [← List.append_assoc, List.getElem?_append_left hi]

omit [Inhabited α] [LinearOrder α] in
theorem getD_next (done row : List α) (val : α) :
    (((done ++ (row ++ [val]))[(done ++ row).length]?).getD 0) = val := by
  rw [← List.append_assoc, List.getElem?_append_right (Nat.le_refl _), Nat.sub_self]
  rfl

/-- A value that is not the last one of its frame. -/
theorem Partway.receiveValue_cell (h : Partway x W done row) (hmore : row.length + 1 < 12)
    (c : Nat) {offset : α} (hoffset : x.mOffset[row.length]? = some offset) :
    ∃ y, x.receiveValue c = some y ∧ y.mState = -1 ∧
      Partway y W done (row ++ [signal x.mHigh c - offset]) ∧ SameFrame x y := by
  have hindex := h.index
  have hmod : (done ++ row).length % 12 + 1 < 12 := by
    rw [← h.fills.index, hindex]
    exact hmore
  obtain ⟨cell, b, hvector, hwrite, -, hfills⟩ :=
    (h.fills_next (signal x.mHigh c - offset)).put_cell (by decide) hmod
  rw [getD_next] at hwrite
  rw [hindex] at hwrite hfills
  obtain ⟨found, hfound⟩ : ∃ found, found = higher row.length (signal x.mHigh c - offset)
    (x.mFindHighestValue, x.mFindHighestDirection) := ⟨_, rfl⟩
  refine ⟨{ x with
      stream := ⟨b, some cell, row.length + 1⟩
      mState := -1
      mFindHighestValue := found.1
      mFindHighestDirection := found.2 }, ?_, rfl, ⟨?_, h.offsets, h.complete, ?_, ?_⟩,
    rfl, rfl, rfl, rfl⟩
  · simp only [receiveValue, hindex, hoffset, Option.bind_eq_bind, Option.bind_some, hvector,
      hwrite, ← hfound, if_neg (Nat.not_le.mpr hmore)]
  · simpa [Nat.add_assoc] using hfills
  · simpa using hmore
  · rw [highest_append, ← h.found, ← hfound]

omit [Inhabited α] [LinearOrder α] in
/-- The row that is written, in the values of the stream. -/
theorem last_row {done row : List α} (hdone : done.length % 12 = 0) (hrow : row.length = 12)
    {m : Nat} (hm : m + 1 = (done ++ row).length) :
    ((List.range 12).map fun l => ((done ++ row)[m / 12 * 12 + l]?).getD 0) = row := by
  have hfirst : m / 12 * 12 = done.length := by
    rw [List.length_append] at hm
    omega
  refine List.ext_getElem (by simp [hrow]) fun l hl hl' => ?_
  rw [List.getElem_map, List.getElem_range, hfirst,
    List.getElem?_append_right (Nat.le_add_right _ _), Nat.add_sub_cancel_left,
    List.getElem?_eq_getElem hl', Option.getD_some]

/-- The last value of a frame. -/
theorem Partway.receiveValue_row (h : Partway x W done row) (hW : 1 ≤ W)
    (hfull : row.length + 1 = 12) (c : Nat) {offset : α}
    (hoffset : x.mOffset[row.length]? = some offset) :
    ∃ y, x.receiveValue c = some y ∧ y.mState = -3 ∧
      Partway y W (done ++ (row ++ [signal x.mHigh c - offset])) [] ∧
      y.mOffset = (if x.mOffsetOnFull then
        List.zipWith (· + ·) x.mOffset (row ++ [signal x.mHigh c - offset]) else x.mOffset) ∧
      y.mOffsetOnFull = false ∧
      (y.mHighestValue, y.mHighestDirection) = highest (row ++ [signal x.mHigh c - offset]) := by
  have hindex := h.index
  have hmod : (done ++ row).length % 12 + 1 = 12 := by
    rw [← h.fills.index, hindex]
    exact hfull
  obtain ⟨cell, b, cell', b', hvector, hwrite, -, hloads, hadvance, hfills⟩ :=
    (h.fills_next (signal x.mHigh c - offset)).put_row hW (by decide) hmod
  have hlength : (row ++ [signal x.mHigh c - offset]).length = 12 := by simpa using hfull
  rw [getD_next, hindex] at hwrite
  rw [last_row h.complete hlength (by simp; omega)] at hloads
  obtain ⟨found, hfound⟩ : ∃ found, found = higher row.length (signal x.mHigh c - offset)
    (x.mFindHighestValue, x.mFindHighestDirection) := ⟨_, rfl⟩
  have hoffsets : (if x.mOffsetOnFull then
      List.zipWith (· + ·) x.mOffset (row ++ [signal x.mHigh c - offset]) else x.mOffset).length =
      12 := by
    split
    · rw [List.length_zipWith, h.offsets, hlength]
      rfl
    · exact h.offsets
  refine ⟨{ x with
      stream := ⟨b', some cell', 0⟩
      mState := -3
      mOffset := if x.mOffsetOnFull then
        List.zipWith (· + ·) x.mOffset (row ++ [signal x.mHigh c - offset]) else x.mOffset
      mOffsetOnFull := false
      mFindHighestValue := 0
      mFindHighestDirection := 0
      mHighestValue := found.1
      mHighestDirection := found.2 }, ?_, rfl, ⟨?_, hoffsets, ?_, by simp, rfl⟩, rfl, rfl, ?_⟩
  · simp only [receiveValue, hindex, hoffset, Option.bind_eq_bind, Option.bind_some, hvector,
      hwrite, ← hfound, if_pos (Nat.le_of_eq hfull.symm), hloads, hadvance]
  · simpa [Nat.add_assoc] using hfills
  · have hdone := h.complete
    rw [List.length_append, hlength]
    omega
  · rw [highest_append, ← h.found, ← hfound]

/-- The rows that are sent, with this parameter `buffer`. -/
def windowOf (buffer : Option Nat) : Nat := max 1 (buffer.getD 1)

/-- A new object. -/
theorem start_partway (memory : Nat × Nat) (onFull : Bool) (buffer : Option Nat) :
    ∃ x : Cabox α, start memory onFull buffer = some x ∧ x.mState = -3 ∧
      x.mOffsetOnFull = onFull ∧ x.mOffset = List.replicate 12 0 ∧
      Partway x (windowOf buffer) [] [] ∧
      (x.mHighestValue, x.mHighestDirection) = highest ([] : List α) := by
  obtain ⟨b₀, cell, b₁, hsizes, -, -, hadvance, hfills⟩ :=
    BufferStream.setSizes_fills (Buffer.unset memory.1 memory.2 : Buffer α)
      (fun i => (([] : List α)[i]?).getD 0) (W := 1) (C := 12) (by decide) (by decide)
  have hinit : init memory onFull = some (⟨⟨b₁, some cell, 0⟩, -3, 0, List.replicate 12 0, onFull,
      0, 0, 0, 0⟩ : Cabox α) := by
    rw [init, hsizes, Option.bind_eq_bind, Option.bind_some, hadvance]
    rfl
  rw [start, hinit, Option.bind_eq_bind, Option.bind_some]
  cases buffer with
  | none => exact ⟨_, rfl, rfl, rfl, rfl, ⟨hfills, List.length_replicate, rfl, by simp, rfl⟩, rfl⟩
  | some size =>
    have hwindow : (if size < 1 then 1 else size) = windowOf (some size) := by
      rw [windowOf, Option.getD_some]
      split <;> omega
    obtain ⟨b₂, cell', b₃, hsizes', -, -, hadvance', hfills'⟩ :=
      BufferStream.setSizes_fills b₁ (fun i => (([] : List α)[i]?).getD 0)
        (W := windowOf (some size)) (C := 12) (Nat.le_max_left _ _) (by decide)
    refine ⟨⟨⟨b₃, some cell', 0⟩, -3, 0, List.replicate 12 0, onFull, 0, 0, 0, 0⟩, ?_, rfl, rfl,
      rfl, ⟨hfills', List.length_replicate, rfl, by simp, rfl⟩, rfl⟩
    rw [set, hwindow, hsizes', Option.bind_eq_bind, Option.bind_some, hadvance']
    rfl

/-! ## Between the bytes of a frame -/

/-- What happens, and whether a frame was completed. -/
def run (x : Cabox α) : List Event → Option (Bool × Cabox α)
  | [] => some (false, x)
  | .offset :: events => run x.offset events
  | .byte c :: events => do
      let y ← x.receive c
      let (newData, z) ← run y events
      some (decide x.Completes || newData, z)

theorem run_append (x : Cabox α) (events events' : List Event) :
    x.run (events ++ events') = (x.run events).bind fun p =>
      (p.2.run events').map fun q => (p.1 || q.1, q.2) := by
  induction events generalizing x with
  | nil => simp [run]
  | cons event events ih =>
    cases event with
    | offset => exact ih x.offset
    | byte c =>
      simp only [List.cons_append, run, Option.bind_eq_bind, Option.bind_assoc]
      refine congrArg _ (funext fun y => ?_)
      rw [ih y, Option.bind_assoc]
      refine congrArg _ (funext fun p => ?_)
      rw [Option.bind_some]
      cases p.2.run events' with
      | none => rfl
      | some q => simp [Bool.or_assoc]

theorem receiveAll_eq_run (x : Cabox α) (bytes : List Nat) :
    x.receiveAll bytes = x.run (bytes.map .byte) := by
  induction bytes generalizing x with
  | nil => rfl
  | cons c cs ih => simp only [receiveAll, List.map_cons, run, ih]

/-- Calls are what happens in them. -/
theorem calls_eq_run (x : Cabox α) (calls : List Call) :
    calls.foldlM call x = (x.run (eventsOf calls)).map Prod.snd := by
  induction calls generalizing x with
  | nil => rfl
  | cons c calls ih =>
    rw [List.foldlM_cons, eventsOf, List.flatMap_cons, run_append]
    cases c with
    | offset =>
      refine (ih x.offset).trans ?_
      simp [run, eventsOf]
    | bang bytes =>
      simp only [call, bang, receiveAll_eq_run]
      cases x.run (bytes.map .byte) with
      | none => rfl
      | some p =>
        refine (ih p.2).trans ?_
        simp [eventsOf, Function.comp_def]

/-- With a call of `offset`, or without one. -/
def withOffset (flag : Bool) (x : Cabox α) : Cabox α :=
  { x with mOffsetOnFull := x.mOffsetOnFull || flag }

/-- Bytes that do not complete a frame. -/
inductive Calm : Cabox α → List Nat → Cabox α → Prop
  | nil (x : Cabox α) : Calm x [] x
  | cons {x y z : Cabox α} {c : Nat} {cs : List Nat} : ¬ x.Completes → x.receive c = some y →
      Calm y cs z → Calm x (c :: cs) z

theorem Calm.append {z : Cabox α} {cs ds : List Nat} (h : Calm x cs y) (h' : Calm y ds z) :
    Calm x (cs ++ ds) z := by
  induction h with
  | nil => exact h'
  | cons hnot hreceive _ ih => exact .cons hnot hreceive (ih h')

theorem Calm.single {c : Nat} (hnot : ¬ x.Completes) (h : x.receive c = some y) : Calm x [c] y :=
  .cons hnot h (.nil y)

theorem receiveValue_withOffset (hless : ¬ 12 ≤ x.stream.mIndex + 1) (flag : Bool) (c : Nat) :
    (withOffset flag x).receiveValue c = (x.receiveValue c).map (withOffset flag) := by
  obtain ⟨⟨b, vector, index⟩, state, high, offsets, onFull, value, direction, value',
    direction'⟩ := x
  have hmore : ¬ 12 ≤ index + 1 := hless
  simp only [receiveValue, withOffset]
  cases offsets[index]? with
  | none => rfl
  | some offset =>
    cases vector with
    | none => rfl
    | some vector =>
      simp only [Option.bind_eq_bind, Option.bind_some]
      cases b.write (vector + index) [signal high c - offset] with
      | none => rfl
      | some b =>
        rw [Option.bind_some, Option.bind_some, if_neg hmore]
        exact (if_neg hmore).trans rfl

/-- Whether `offset` is called before or after such a byte makes no difference. -/
theorem receive_withOffset (hnot : ¬ x.Completes) (flag : Bool) (c : Nat) :
    (withOffset flag x).receive c = (x.receive c).map (withOffset flag) := by
  unfold receive
  by_cases h3 : x.mState = -3
  · have h3' : (withOffset flag x).mState = -3 := h3
    rw [if_pos h3, if_pos h3']
    split <;> rfl
  · by_cases h2 : x.mState = -2
    · have h2' : (withOffset flag x).mState = -2 := h2
      rw [if_neg h3, if_pos h2, if_neg (by omega), if_pos h2']
      split <;> rfl
    · by_cases h1 : x.mState = -1
      · have h1' : (withOffset flag x).mState = -1 := h1
        rw [if_neg h3, if_neg h2, if_pos h1, if_neg (by omega), if_neg (by omega), if_pos h1']
        rfl
      · have hs : (withOffset flag x).mState = x.mState := rfl
        have hless : ¬ 12 ≤ x.stream.mIndex + 1 := fun hle => hnot ⟨h3, h2, h1, hle⟩
        rw [hs, if_neg h3, if_neg h2, if_neg h1, if_neg h3, if_neg h2, if_neg h1]
        exact receiveValue_withOffset hless flag c

/-- Bytes that do not complete a frame, with calls of `offset` between them. -/
theorem Calm.run_eq {cs : List Nat} (h : Calm x cs y) {events : List Event}
    (hbytes : bytesOf events = cs) (flag : Bool) :
    (withOffset flag x).run events =
      some (false, withOffset (flag || events.contains .offset) y) := by
  induction events generalizing x cs flag with
  | nil =>
    obtain rfl := hbytes
    cases h
    simp [run]
  | cons event events ih =>
    cases event with
    | offset =>
      have hoffset : (withOffset flag x).offset = withOffset true x := by
        simp [offset, withOffset]
      rw [run, hoffset]
      refine (ih h hbytes true).trans ?_
      simp
    | byte c =>
      obtain rfl : c :: bytesOf events = cs := hbytes
      cases h with
      | cons hnot hreceive hrest =>
        have hstep := receive_withOffset hnot flag c
        rw [hreceive, Option.map_some] at hstep
        have hnot' : ¬ (withOffset flag x).Completes := hnot
        rw [run, hstep, Option.bind_eq_bind, Option.bind_some, ih hrest rfl flag]
        simp [hnot']

/-! ## A frame -/

/-- What comes between frames is not seen. -/
theorem calm_of_idle (hstate : x.mState = -3) {gap : List Nat} (h : Idle gap) : Calm x gap x := by
  have hnot : ¬ x.Completes := fun hc => hc.1 hstate
  induction h with
  | nothing => exact .nil x
  | other hc _ ih => exact .cons hnot (by rw [receive, if_pos hstate, if_neg hc]) ih
  | single hc _ ih =>
    refine .cons (y := { x with mState := -2 }) hnot (by rw [receive, if_pos hstate, if_pos rfl]) ?_
    refine .cons (fun h => h.2.1 rfl) ?_ ih
    rw [receive, if_neg (by simp), if_pos rfl, if_neg hc, ← hstate]

/-- The two bytes. -/
theorem calm_sync (hstate : x.mState = -3) : Calm x [255, 255] { x with mState := -1 } := by
  refine .cons (y := { x with mState := -2 }) (fun h => h.1 hstate)
    (by rw [receive, if_pos hstate, if_pos rfl]) (.single (fun h => h.2.1 rfl) ?_)
  rw [receive, if_neg (by simp), if_pos rfl, if_pos rfl]

/-- The high byte of a value. -/
theorem calm_high (hstate : x.mState = -1) (c : Nat) :
    Calm x [c] { x with mHigh := c, mState := 0 } :=
  .single (fun h => h.2.2.1 hstate) (by
    rw [receive, if_neg (by omega), if_neg (by omega), if_pos hstate])

/-- Values, but not the last one of the frame. -/
theorem calm_pairs {pairs : List (Nat × Nat)} (hstate : x.mState = -1)
    (h : Partway x W done row) (hmore : row.length + pairs.length < 12) :
    ∃ y, Calm x (pairs.flatMap fun pair => [pair.1, pair.2]) y ∧ y.mState = -1 ∧
      Partway y W done (row ++ List.zipWith (· - ·)
        (pairs.map fun pair => signal pair.1 pair.2) (x.mOffset.drop row.length)) ∧
      SameFrame x y := by
  induction pairs generalizing x row with
  | nil => exact ⟨x, .nil x, hstate, by simpa using h, rfl, rfl, rfl, rfl⟩
  | cons pair pairs ih =>
    rw [List.length_cons] at hmore
    have hlt : row.length < x.mOffset.length := by
      rw [h.offsets]
      exact h.short
    have hoffset := List.getElem?_eq_getElem hlt
    have hhigh : Partway { x with mHigh := pair.1, mState := 0 } W done row :=
      ⟨h.fills, h.offsets, h.complete, h.short, h.found⟩
    obtain ⟨y, hy, hstate', hpart, hsame⟩ := hhigh.receiveValue_cell (by omega) pair.2 hoffset
    obtain ⟨z, hcalm, hstate'', hpart', hsame'⟩ := ih hstate' hpart (by
      rw [List.length_append, List.length_singleton]
      omega)
    have hlow : Calm { x with mHigh := pair.1, mState := 0 } [pair.2] y := by
      refine .single (fun hc => ?_) (by rw [receive, if_neg (by simp), if_neg (by simp),
        if_neg (by simp), hy])
      have hle : 12 ≤ x.stream.mIndex + 1 := hc.2.2.2
      rw [h.index] at hle
      omega
    refine ⟨z, ((calm_high hstate pair.1).append hlow).append hcalm, hstate'', ?_,
      SameFrame.trans ⟨hsame.offset, hsame.onFull, hsame.highestValue, hsame.highestDirection⟩
        hsame'⟩
    have hdrop : x.mOffset.drop row.length =
        x.mOffset[row.length] :: x.mOffset.drop (row.length + 1) :=
      List.drop_eq_getElem_cons hlt
    rw [List.map_cons, hdrop, List.zipWith_cons_cons]
    rw [hsame.offset] at hpart'
    simpa using hpart'

/-- What came before a frame, the two bytes, and values, but not the last one. -/
theorem calm_frame {gap : List Nat} {pairs : List (Nat × Nat)} (hstate : x.mState = -3)
    (h : Partway x W done []) (hidle : Idle gap) (hshort : pairs.length < 12) :
    ∃ y, Calm x (gap ++ frame pairs) y ∧ y.mState = -1 ∧
      Partway y W done (List.zipWith (· - ·)
        (pairs.map fun pair => signal pair.1 pair.2) x.mOffset) ∧
      SameFrame x y := by
  have hsync : Partway { x with mState := -1 } W done [] :=
    ⟨h.fills, h.offsets, h.complete, h.short, h.found⟩
  obtain ⟨y, hcalm, hstate', hpart, hsame⟩ := calm_pairs rfl hsync (by simpa using hshort)
  exact ⟨y, (calm_of_idle hstate hidle).append ((calm_sync hstate).append hcalm), hstate',
    hpart, hsame.offset, hsame.onFull, hsame.highestValue, hsame.highestDirection⟩

/-- The beginning of a frame. -/
theorem Begun.calm {bytes : List Nat} (hbegun : Begun bytes) (hstate : x.mState = -3)
    (h : Partway x W done []) :
    ∃ y row, Calm x bytes y ∧ Partway y W done row ∧ SameFrame x y := by
  cases hbegun with
  | idle hidle => exact ⟨x, [], calm_of_idle hstate hidle, h, rfl, rfl, rfl, rfl⟩
  | first hidle =>
    have hone : Calm x [255] { x with mState := -2 } :=
      .single (fun hc => hc.1 hstate) (by rw [receive, if_pos hstate, if_pos rfl])
    exact ⟨_, [], (calm_of_idle hstate hidle).append hone,
      ⟨h.fills, h.offsets, h.complete, h.short, h.found⟩, rfl, rfl, rfl, rfl⟩
  | values hidle hshort =>
    obtain ⟨y, hcalm, -, hpart, hsame⟩ := calm_frame hstate h hidle hshort
    exact ⟨y, _, hcalm, hpart, hsame⟩
  | high c hidle hshort =>
    obtain ⟨y, hcalm, hstate', hpart, hsame⟩ := calm_frame hstate h hidle hshort
    refine ⟨{ y with mHigh := c, mState := 0 }, _, ?_,
      ⟨hpart.fills, hpart.offsets, hpart.complete, hpart.short, hpart.found⟩, hsame.offset,
      hsame.onFull, hsame.highestValue, hsame.highestDirection⟩
    rw [← List.append_assoc]
    exact hcalm.append (calm_high hstate' c)

omit [Inhabited α] [LinearOrder α] in
theorem zipWith_sub_snoc (vals : List α) (val : α) (offsets : List α) {offset : α}
    (h : offsets[vals.length]? = some offset) :
    List.zipWith (· - ·) (vals ++ [val]) offsets =
      List.zipWith (· - ·) vals offsets ++ [val - offset] := by
  induction vals generalizing offsets with
  | nil =>
    obtain ⟨offset', offsets', rfl⟩ : ∃ a as, offsets = a :: as :=
      List.exists_cons_of_length_pos (List.getElem?_eq_some_iff.mp h).1
    obtain rfl : offset' = offset := by simpa using h
    rfl
  | cons v vals ih =>
    cases offsets with
    | nil => simp at h
    | cons o offsets =>
      rw [List.cons_append, List.zipWith_cons_cons, List.zipWith_cons_cons, List.cons_append,
        ih offsets (by simpa using h)]

omit [Inhabited α] [LinearOrder α] in
/-- The offsets and what was decoded with them are what was sent. -/
theorem zipWith_add_sub {vals offsets : List α} (h : vals.length = offsets.length) :
    List.zipWith (· + ·) offsets (List.zipWith (· - ·) vals offsets) = vals := by
  induction vals generalizing offsets with
  | nil => simp
  | cons v vals ih =>
    cases offsets with
    | nil => cases h
    | cons o offsets =>
      rw [List.zipWith_cons_cons, List.zipWith_cons_cons, ih (Nat.succ.inj h)]
      exact congrArg (· :: vals) (add_sub_cancel o v)

/-- A frame, up to its last byte. -/
theorem Segment.run_events (s : Segment) (hstate : x.mState = -3) (h : Partway x W done []) :
    ∃ z, x.run s.events = some (false, z) ∧ z.mState = 0 ∧ z.mHigh = s.high ∧
      Partway z W done (List.zipWith (· - ·)
        (s.pairs.map fun pair => signal pair.1 pair.2) x.mOffset) ∧
      z.mOffset = x.mOffset ∧ z.mOffsetOnFull = (x.mOffsetOnFull || s.calibrates) := by
  obtain ⟨y, hcalm, hstate', hpart, hsame⟩ :=
    calm_frame hstate h s.idle (Nat.lt_of_le_of_lt (Nat.le_of_eq s.length) (by decide))
  have hall := hcalm.append (calm_high hstate' s.high)
  rw [List.append_assoc] at hall
  have hrun := hall.run_eq s.bytes false
  have hx : withOffset false x = x := by simp [withOffset]
  rw [hx, Bool.false_or] at hrun
  exact ⟨_, hrun, rfl, rfl,
    ⟨hpart.fills, hpart.offsets, hpart.complete, hpart.short, hpart.found⟩, hsame.offset,
    congrArg (· || s.calibrates) hsame.onFull⟩

/-- A frame: the byte that completes it, and the object afterwards. -/
theorem Segment.run_segment (s : Segment) (hW : 1 ≤ W) (hstate : x.mState = -3)
    (h : Partway x W done []) :
    ∃ z y, x.run s.events = some (false, z) ∧ z.Completes ∧ z.receive s.low = some y ∧
      y.mState = -3 ∧ Partway y W (done ++ List.zipWith (· - ·) (s.signals α) x.mOffset) [] ∧
      y.mOffset = (if x.mOffsetOnFull || s.calibrates then s.signals α else x.mOffset) ∧
      y.mOffsetOnFull = false ∧ (y.mHighestValue, y.mHighestDirection) =
        highest (List.zipWith (· - ·) (s.signals α) x.mOffset) := by
  obtain ⟨z, hrun, hstateZ, hhigh, hpart, hoffsets, honFull⟩ := s.run_events hstate h
  obtain ⟨row, hrow⟩ : ∃ row, row = List.zipWith (· - ·)
    (s.pairs.map fun pair => signal pair.1 pair.2) x.mOffset := ⟨_, rfl⟩
  rw [← hrow] at hpart
  have hlength : row.length = 11 := by
    rw [hrow, List.length_zipWith, List.length_map, s.length, h.offsets]
    rfl
  obtain ⟨offset, hoffset⟩ : ∃ offset, x.mOffset[row.length]? = some offset :=
    ⟨_, List.getElem?_eq_getElem (by rw [hlength, h.offsets]; decide)⟩
  have hdecoded : List.zipWith (· - ·) (s.signals α) x.mOffset =
      row ++ [signal s.high s.low - offset] := by
    rw [Segment.signals, List.map_append, hrow]
    refine zipWith_sub_snoc _ _ _ ?_
    rw [List.length_map, s.length, ← hlength]
    exact hoffset
  have hsignals : (s.signals α).length = x.mOffset.length := by
    rw [Segment.signals, List.length_map, List.length_append, s.length, h.offsets]
    rfl
  obtain ⟨y, hy, hstateY, hpartY, hoffsetY, hfullY, hhighest⟩ :=
    hpart.receiveValue_row hW (by omega) s.low ((congrArg (·[row.length]?) hoffsets).trans hoffset)
  rw [hhigh, ← hdecoded] at hpartY hoffsetY hhighest
  refine ⟨z, y, hrun, ⟨by omega, by omega, by omega, ?_⟩, ?_, hstateY, hpartY, ?_, hfullY, hhighest⟩
  · rw [hpart.index, hlength]
  · rw [receive, if_neg (by omega), if_neg (by omega), if_neg (by omega)]
    exact hy
  · rw [hoffsetY, hoffsets, honFull, zipWith_add_sub hsignals]

/-! ## All frames -/

theorem run_segments (hW : 1 ≤ W) (segments : List Segment) {last : List α}
    (hstate : x.mState = -3) (h : Partway x W done [])
    (hhighest : (x.mHighestValue, x.mHighestDirection) = highest last) :
    ∃ y, x.run (segments.flatMap Segment.all) = some (!segments.isEmpty, y) ∧ y.mState = -3 ∧
      Partway y W (done ++ (decoded x.mOffsetOnFull x.mOffset segments).flatten) [] ∧
      (y.mHighestValue, y.mHighestDirection) =
        highest ((decoded x.mOffsetOnFull x.mOffset segments).getLastD last) := by
  induction segments generalizing x done last with
  | nil => exact ⟨x, rfl, hstate, by simpa [decoded] using h, hhighest⟩
  | cons s ss ih =>
    obtain ⟨z, y, hrun, hcompletes, hreceive, hstateY, hpart, hoffset, hfull, hhighestY⟩ :=
      s.run_segment hW hstate h
    obtain ⟨w, hrun', hstateW, hpartW, hhighestW⟩ := ih hstateY hpart hhighestY
    rw [hfull, hoffset] at hpartW hhighestW
    refine ⟨w, ?_, hstateW, ?_, ?_⟩
    · rw [List.flatMap_cons, run_append, Segment.all, run_append, hrun]
      simp [run, hreceive, hcompletes, hrun']
    · simpa [decoded] using hpartW
    · rw [decoded, List.getLastD_cons]
      exact hhighestW

omit [Inhabited α] [LinearOrder α] in
theorem length_decoded_row {flag : Bool} {rest : List α} (hrest : rest.length = 12)
    {segments : List Segment} : ∀ row ∈ decoded flag rest segments, row.length = 12 := by
  induction segments generalizing flag rest with
  | nil => simp [decoded]
  | cons s ss ih =>
    have hsignals : (s.signals α).length = 12 := by
      rw [Segment.signals, List.length_map, List.length_append, s.length]
      rfl
    intro row hrow
    rcases List.mem_cons.mp hrow with rfl | hrow
    · rw [List.length_zipWith, hsignals, hrest]
      rfl
    · refine ih ?_ row hrow
      split
      · exact hsignals
      · exact hrest

/-- What is sent after these frames: direction and value of the highest signal of the last one,
and as many frames as the window has rows.  Before the first frame the window is 0. -/
def report (onFull : Bool) (W : Nat) (segments : List Segment) :
    Nat × α × Option (List (List α)) :=
  let rows := decoded onFull (List.replicate 12 0) segments
  let found := highest (rows.getLastD [])
  (found.2, found.1, some ((List.replicate W (List.replicate 12 0) ++ rows).drop rows.length))

omit [Inhabited α] in
/-- After complete frames and the beginning of one more. -/
theorem sent_eq_report {onFull : Bool} {segments : List Segment}
    (hpart : Partway x W (decoded onFull (List.replicate 12 0) segments).flatten row)
    (hhighest : (x.mHighestValue, x.mHighestDirection) =
      highest ((decoded onFull (List.replicate 12 0) segments).getLastD [])) :
    x.sent = report onFull W segments := by
  obtain ⟨rows, hrows⟩ : ∃ rows, rows = decoded onFull (List.replicate 12 (0 : α)) segments :=
    ⟨_, rfl⟩
  have hwidth : ∀ row ∈ rows, row.length = 12 := hrows ▸ length_decoded_row List.length_replicate
  rw [← hrows] at hpart hhighest
  have hflatten : rows.flatten.length = rows.length * 12 := by
    rw [List.length_flatten, List.map_congr_left hwidth, List.map_const', List.sum_replicate_nat]
  have hdiv : (rows.flatten ++ row).length / 12 = rows.length := by
    have hshort := hpart.short
    rw [List.length_append, hflatten]
    omega
  have hcomplete : BufferStream.lastVectors W 12 (fun i => ((rows.flatten ++ row)[i]?).getD 0)
      rows.length =
        BufferStream.lastVectors W 12 (fun i => (rows.flatten[i]?).getD 0) rows.length :=
    BufferStream.lastVectors_congr
      (fun i hi => by rw [List.getElem?_append_left (by omega)]) W
  have hmatrix := hpart.fills.matrix_eq
  rw [hdiv, hcomplete, BufferStream.lastVectors_flatten hwidth] at hmatrix
  rw [report, ← hrows, ← hhighest, sent, hmatrix]

theorem run_split {events events' : List Event} {flag : Bool}
    (h : x.run (events ++ events') = some (flag, y)) :
    ∃ f z g, x.run events = some (f, z) ∧ z.run events' = some (g, y) ∧ flag = (f || g) := by
  rw [run_append] at h
  obtain ⟨⟨f, z⟩, hf, h⟩ := Option.bind_eq_some_iff.mp h
  obtain ⟨⟨g, w⟩, hg, h⟩ := Option.map_eq_some_iff.mp h
  obtain ⟨rfl, rfl⟩ := Prod.mk.inj h
  exact ⟨f, z, g, hf, hg, rfl⟩

theorem Completes.run_byte (h : x.Completes) {c : Nat} {events : List Event} {flag : Bool}
    (hrun : x.run (.byte c :: events) = some (flag, y)) : flag = true := by
  obtain ⟨z, -, hrun⟩ := Option.bind_eq_some_iff.mp hrun
  obtain ⟨p, -, hrun⟩ := Option.bind_eq_some_iff.mp hrun
  obtain ⟨rfl, -⟩ := Prod.mk.inj (Option.some.inj hrun)
  simp [h]

/-- The last byte of all frames completes one. -/
theorem completes_last (hW : 1 ≤ W) {segments : List Segment} (hstate : x.mState = -3)
    (h : Partway x W [] [])
    (hhighest : (x.mHighestValue, x.mHighestDirection) = highest ([] : List α))
    {events : List Event} {event : Event}
    (hevents : segments.flatMap Segment.all = events ++ [event]) :
    ∃ f z c, x.run events = some (f, z) ∧ z.Completes ∧ event = .byte c := by
  have hne : segments ≠ [] := by
    rintro rfl
    simp at hevents
  obtain ⟨init, s, rfl⟩ : ∃ init s, segments = init ++ [s] :=
    ⟨_, _, (List.dropLast_append_getLast hne).symm⟩
  rw [List.flatMap_append, List.flatMap_singleton, Segment.all, ← List.append_assoc] at hevents
  obtain ⟨rfl, hlast⟩ := List.append_inj' hevents rfl
  obtain ⟨y, hrun, hstateY, hpart, -⟩ := run_segments hW init hstate h hhighest
  obtain ⟨z, -, hrunZ, hcompletes, -⟩ := s.run_segment hW hstateY hpart
  refine ⟨!init.isEmpty || false, z, s.low, ?_, hcompletes, (List.singleton_inj.mp hlast).symm⟩
  rw [run_append, hrun, Option.bind_some, hrunZ]
  rfl

/-- Complete frames, and the beginning of one more. -/
def Splits (events : List Event) (segments : List Segment) (rest : List Event) : Prop :=
  events = segments.flatMap Segment.all ++ rest ∧ Begun (bytesOf rest)

/-- The last events complete a frame if they are more than the beginning of the next one. -/
theorem run_splits (hW : 1 ≤ W) {events events' rest : List Event} {segments : List Segment}
    (hsplit : Splits (events ++ events') segments rest) (hstate : x.mState = -3)
    (h : Partway x W [] [])
    (hhighest : (x.mHighestValue, x.mHighestDirection) = highest ([] : List α)) :
    ∃ f y z row, x.run events = some (f, y) ∧
      y.run events' = some (decide (rest.length < events'.length), z) ∧
      Partway z W (decoded x.mOffsetOnFull x.mOffset segments).flatten row ∧
      (z.mHighestValue, z.mHighestDirection) =
        highest ((decoded x.mOffsetOnFull x.mOffset segments).getLastD []) := by
  obtain ⟨hevents, hbegun⟩ := hsplit
  obtain ⟨w, hrun, hstateW, hpart, hhighestW⟩ := run_segments hW segments hstate h hhighest
  obtain ⟨z, row, hcalm, hpartZ, hsame⟩ := hbegun.calm hstateW hpart
  have hrest := hcalm.run_eq rfl false
  have hw : withOffset false w = w := by simp [withOffset]
  rw [hw, Bool.false_or] at hrest
  rw [← hsame.highestValue, ← hsame.highestDirection] at hhighestW
  have hruns : ∃ f y, x.run events = some (f, y) ∧ y.run events' =
      some (decide (rest.length < events'.length), withOffset (rest.contains .offset) z) := by
    rcases List.append_eq_append_iff.mp hevents with ⟨more, hall, rfl⟩ | ⟨more, rfl, rfl⟩
    · -- the last events begin inside a frame
      rw [hall] at hrun
      obtain ⟨f, y, g, hf, hg, -⟩ := run_split hrun
      refine ⟨f, y, hf, ?_⟩
      have hnew : g = decide (rest.length < (more ++ rest).length) := by
        rcases List.eq_nil_or_concat more with rfl | ⟨most, event, rfl⟩
        · obtain ⟨rfl, -⟩ := Prod.mk.inj (Option.some.inj hg)
          simp
        · rw [List.concat_eq_append] at hall hg ⊢
          rw [← List.append_assoc] at hall
          obtain ⟨f', z', c, hf', hcompletes, rfl⟩ := completes_last hW hstate h hhighest hall
          obtain ⟨_, y', g', hy, hg', -⟩ := run_split hf'
          obtain ⟨-, rfl⟩ := Prod.mk.inj (Option.some.inj (hf.symm.trans hy))
          obtain ⟨f'', y'', g'', hy'', hg'', rfl⟩ := run_split hg
          obtain ⟨-, rfl⟩ := Prod.mk.inj (Option.some.inj (hg'.symm.trans hy''))
          rw [hcompletes.run_byte hg'', Bool.or_true, eq_comm, decide_eq_true_eq]
          simp only [List.length_append, List.length_singleton]
          omega
      rw [run_append, hg, Option.bind_some, hrest, hnew]
      simp
    · -- the last events begin after the last frame
      obtain ⟨f, y, g, hf, hg, hnew⟩ := run_split hrest
      refine ⟨_, y, by rw [run_append, hrun, Option.bind_some, hf]; rfl, ?_⟩
      have hnone : g = false := (Bool.or_eq_false_iff.mp hnew.symm).2
      rw [hg, hnone]
      simp
  obtain ⟨f, y, hf, hy⟩ := hruns
  exact ⟨f, y, _, row, hf, hy,
    ⟨hpartZ.fills, hpartZ.offsets, hpartZ.complete, hpartZ.short, hpartZ.found⟩, hhighestW⟩

/-- The bytes of a call complete a frame, or none. -/
theorem sends_report (memory : Nat × Nat) (onFull : Bool) (buffer : Option Nat)
    {before : List Call} {bytes : List Nat} {segments : List Segment} {rest : List Event}
    (hsplit : Splits (eventsOf (before ++ [.bang bytes])) segments rest) :
    ∃ x₀ x y : Cabox α, start memory onFull buffer = some x₀ ∧ before.foldlM call x₀ = some x ∧
      x.bang bytes = some (if rest.length < bytes.length then
        some (report onFull (windowOf buffer) segments) else none, y) := by
  obtain ⟨x₀, hstart, hstate, honFull, hoffset, hpart, hhighest⟩ :=
    start_partway (α := α) memory onFull buffer
  have hevents : eventsOf (before ++ [.bang bytes]) = eventsOf before ++ bytes.map .byte := by
    simp [eventsOf]
  rw [hevents] at hsplit
  obtain ⟨f, x, y, row, hrun, hbytes, hpartY, hhighestY⟩ :=
    run_splits (Nat.le_max_left _ _) hsplit hstate hpart hhighest
  rw [honFull, hoffset] at hpartY hhighestY
  rw [List.length_map] at hbytes
  refine ⟨x₀, x, y, hstart, by rw [calls_eq_run, hrun]; rfl, ?_⟩
  have hsent : y.sent = report onFull (windowOf buffer) segments := sent_eq_report hpartY hhighestY
  rw [bang, receiveAll_eq_run, hbytes, ← hsent]
  simp

/-- Whatever comes, in whatever pieces, is read as complete frames and the beginning of one more.
A call that completes a frame reports on all of them, any other call sends nothing. -/
theorem decodes_calls (memory : Nat × Nat) (onFull : Bool) (buffer : Option Nat)
    (before : List Call) (bytes : List Nat) :
    (∃ segments rest, Splits (eventsOf (before ++ [.bang bytes])) segments rest) ∧
    ∀ segments rest, Splits (eventsOf (before ++ [.bang bytes])) segments rest →
      ∃ x₀ x y : Cabox α, start memory onFull buffer = some x₀ ∧ before.foldlM call x₀ = some x ∧
        x.bang bytes = some (if rest.length < bytes.length then
          some (report onFull (windowOf buffer) segments) else none, y) :=
  ⟨exists_segments _, fun _ _ => sends_report memory onFull buffer⟩

end Cabox

end Rubyk
