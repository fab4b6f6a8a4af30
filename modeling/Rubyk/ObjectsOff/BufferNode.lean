/-
  ObjectsOff/BufferNode.lean --- the `Buffer` object, `src/objects_off/Buffer.cpp`.

  The object gets matrices and numbers and sends, after each of them, a window on the
  last vectors.  Of a matrix it takes the first row.  How the values were cut into
  matrices is lost: a vector goes on in the next input where it ended in this one.  Only
  the very first input counts: it sets the size of the vectors, if no `vector` parameter
  did.

  `Received` is what the object is for: the sizes, and the values since they were set.
  `Follows` joins it to the object.

  SIZES AND MEMORY are those of `Core/TMatrix.lean` and `Core/Buffer.lean`: there is always
  enough memory, a block of no cells is a block (macOS), and sizes are exact, as they are
  while the buffer has fewer than 2^31 rows.
-/
import Rubyk.Core.BufferStream

set_option autoImplicit false

namespace Rubyk

open Lib

namespace BufferNode

variable {α : Type} [Inhabited α] [Zero α]

/-- What arrives at the inlet. -/
inductive Input (α : Type) where
  | matrix (m : TMatrix α)
  | number (d : α)
  | other

/-- What happens to the object. -/
inductive Action (α : Type) where
  | bang (val : Input α)
  /-- `set`, with the parameters `buffer` and `vector` -/
  | set (window vector : Option Nat)

/-- `init`, on memory that holds anything. -/
def init (memory : Nat × Nat) : Option (BufferStream α) := do
  let b ← (Buffer.unset memory.1 memory.2).setSizes 8 0
  some ⟨b, none, 0⟩

/-- `set`, the parameter `buffer`. -/
def setWindow (b : Buffer α) : Option Nat → Option (Buffer α)
  | some size => b.setSizes size b.mBuffer.mColCount
  | none => some b

/-- `set`, the parameter `vector`. -/
def setVector (b : Buffer α) : Option Nat → Option (Buffer α)
  | some size => b.setSizes b.mWindowSize size
  | none => some b

/-- `set`. -/
def set (s : BufferStream α) (window vector : Option Nat) : Option (BufferStream α) := do
  let b ← setWindow s.mBuffer window
  let b ← setVector b vector
  if b.mWindowSize * b.mBuffer.mColCount ≠ 0 then
    let (row, b) ← b.advance
    some ⟨b, row, 0⟩
  else some ⟨b, s.mVector, 0⟩

/-- The sizes of the first signal.  The result says whether there is a row to write to. -/
def prepare (s : BufferStream α) (colCount : Nat) : Option (Bool × BufferStream α) :=
  if s.mVector.isSome then some (true, s)
  else do
    let b ← s.mBuffer.setSizes s.mBuffer.mWindowSize colCount
    let (row, b) ← b.advance
    if row.isSome then some (true, ⟨b, row, 0⟩) else some (false, ⟨b, row, s.mIndex⟩)

/-- The loop over the first row of a matrix. -/
def putRow (s : BufferStream α) (m : TMatrix α) : Option (BufferStream α) :=
  (List.range m.mColCount).foldlM (fun s i => do
    let x ← m.data[i]?
    s.put x) s

/-- `bang`: what is sent, as its receivers see it, and the object. -/
def bang (s : BufferStream α) (val : Input α) :
    Option (Option (List (List α)) × BufferStream α) :=
  match val with
  | .matrix m => do
      let (ready, s) ← prepare s m.mColCount
      if ready then
        let s ← putRow s m
        some (s.mBuffer.matrix, s)
      else some (none, s)
  | .number d => do
      let (ready, s) ← prepare s 1
      if ready then
        let s ← s.put d
        some (s.mBuffer.matrix, s)
      else some (none, s)
  | .other => some (s.mBuffer.matrix, s)

/-- One step. -/
def step (s : BufferStream α) : Action α → Option (BufferStream α)
  | .bang val => (bang s val).map Prod.snd
  | .set window vector => set s window vector

/-! ## What the object is for -/

/-- The sizes, and what was received since they were set. -/
structure Received (α : Type) where
  window : Nat
  /-- the size of a vector, when it is known -/
  columns : Option Nat
  values : List α

namespace Received

/-- The first row of a matrix, or the number. -/
def row : Input α → List α
  | .matrix m => m.data.take m.mColCount
  | .number d => [d]
  | .other => []

/-- The size of the vectors after an input. -/
def columnsAfter (columns : Option Nat) : Input α → Option Nat
  | .matrix m => some (columns.getD m.mColCount)
  | .number _ => some (columns.getD 1)
  | .other => columns

/-- One step. -/
def step (r : Received α) : Action α → Received α
  | .bang val => { r with columns := columnsAfter r.columns val, values := r.values ++ row val }
  | .set window vector => ⟨window.getD r.window, vector.orElse fun _ => r.columns, []⟩

/-- After `init` and the actions. -/
def ofActions (actions : List (Action α)) : Received α := actions.foldl step ⟨8, none, []⟩

/-- The last complete vectors. -/
def lastVectors (r : Received α) (C : Nat) : List (List α) :=
  BufferStream.lastVectors r.window C (fun i => (r.values[i]?).getD 0) (r.values.length / C)

end Received

/-- A matrix has a row and a column, and `set` is told a size. -/
def Action.Proper : Action α → Prop
  | .bang (.matrix m) => 1 ≤ m.mColCount ∧ m.mColCount ≤ m.data.length
  | .bang _ => True
  | .set window vector => (∀ size ∈ window, 1 ≤ size) ∧ (∀ size ∈ vector, 1 ≤ size) ∧
      (window.isSome ∨ vector.isSome)

/-! ## The object follows -/

variable {s : BufferStream α} {r : Received α}

/-- The object is in the state of what it received. -/
structure Follows (s : BufferStream α) (r : Received α) : Prop where
  window : 1 ≤ r.window
  waiting : r.columns = none → s.mVector = none ∧ s.mBuffer.mWindowSize = r.window ∧
    s.mBuffer.mBuffer.mColCount = 0 ∧ r.values = []
  filling : ∀ C, r.columns = some C → 1 ≤ C ∧
    s.Fills r.window C (fun i => (r.values[i]?).getD 0) r.values.length

omit [Inhabited α] in
/-- The values go on with those of an input. -/
theorem fills_append {W C : Nat} {xs : List α}
    (h : s.Fills W C (fun i => (xs[i]?).getD 0) xs.length) (ys : List α) :
    s.Fills W C (fun i => ((xs ++ ys)[i]?).getD 0) xs.length :=
  h.congr fun i hi => by rw [List.getElem?_append_left hi]

/-- Before the first value the sizes are set, and then no more. -/
theorem Follows.prepare_fills (h : Follows s r) {colCount : Nat} (hcols : 1 ≤ colCount) :
    ∃ s', prepare s colCount = some (true, s') ∧ 1 ≤ r.columns.getD colCount ∧
      s'.Fills r.window (r.columns.getD colCount) (fun i => (r.values[i]?).getD 0)
        r.values.length := by
  cases hcolumns : r.columns with
  | none =>
    obtain ⟨hvector, hwindow, -, hvalues⟩ := h.waiting hcolumns
    obtain ⟨b₀, cell, b₁, hsizes, -, -, hadvance, hfills⟩ :=
      BufferStream.setSizes_fills s.mBuffer (fun i => (r.values[i]?).getD 0) h.window hcols
    refine ⟨⟨b₁, some cell, 0⟩, ?_, hcols, ?_⟩
    · simp [prepare, hvector, hwindow, hsizes, hadvance]
    · rw [hvalues] at hfills ⊢
      exact hfills
  | some C =>
    obtain ⟨hC, hfills⟩ := h.filling C hcolumns
    obtain ⟨-, first, row, hvector, -⟩ := hfills
    exact ⟨s, by simp [prepare, hvector], hC, (h.filling C hcolumns).2⟩

omit [Zero α] in
theorem putRow_eq (s : BufferStream α) {m : TMatrix α} (hm : m.mColCount ≤ m.data.length) :
    putRow s m = (m.data.take m.mColCount).foldlM BufferStream.put s := by
  unfold putRow
  generalize m.mColCount = n at hm
  induction n with
  | zero => rfl
  | succ n ih =>
    have hlt : n < m.data.length := hm
    rw [List.range_succ, List.foldlM_append, ih (Nat.le_of_succ_le hm), List.take_add_one,
      List.foldlM_append, List.getElem?_eq_getElem hlt]
    simp [List.getElem?_eq_getElem hlt]

/-- An input. -/
theorem Follows.bang_follows (h : Follows s r) {val : Input α}
    (hproper : Action.Proper (.bang val)) :
    ∃ s', bang s val = some (s'.mBuffer.matrix, s') ∧ Follows s' (r.step (.bang val)) := by
  -- the values of the input are put into the buffer
  have hputs (xs : List α) {colCount : Nat} (hcols : 1 ≤ colCount) :
      ∃ s₁ s', prepare s colCount = some (true, s₁) ∧ xs.foldlM BufferStream.put s₁ = some s' ∧
        Follows s'
          { r with columns := some (r.columns.getD colCount), values := r.values ++ xs } := by
    obtain ⟨s₁, hprepare, hC, hfills⟩ := h.prepare_fills hcols
    have hnext : ∀ i < xs.length,
        xs[i]? = some (((r.values ++ xs)[r.values.length + i]?).getD 0) := fun i hi => by
      rw [List.getElem?_append_right (Nat.le_add_right _ _), Nat.add_sub_cancel_left,
        List.getElem?_eq_getElem hi, Option.getD_some]
    obtain ⟨s', hput, hfills'⟩ := (fills_append hfills xs).puts_fills h.window hC hnext
    refine ⟨s₁, s', hprepare, hput, h.window, fun hnone => (by cases hnone), fun C hsome => ?_⟩
    obtain rfl := Option.some.inj hsome
    exact ⟨hC, by simpa using hfills'⟩
  cases val with
  | matrix m =>
    obtain ⟨hcols, hdata⟩ := hproper
    obtain ⟨s₁, s', hprepare, hput, hfollows⟩ := hputs (m.data.take m.mColCount) hcols
    exact ⟨s', by simp [bang, hprepare, putRow_eq s₁ hdata, hput], hfollows⟩
  | number d =>
    obtain ⟨s₁, s', hprepare, hput, hfollows⟩ := hputs [d] (Nat.le_refl 1)
    have hput' : s₁.put d = some s' := by simpa using hput
    exact ⟨s', by simp [bang, hprepare, hput'], hfollows⟩
  | other =>
    refine ⟨s, rfl, h.window, fun hnone => ?_, fun C hsome => ?_⟩
    · obtain ⟨hvector, hwindow, hcolumns, hvalues⟩ := h.waiting hnone
      exact ⟨hvector, hwindow, hcolumns, by simp [Received.step, Received.row, hvalues]⟩
    · obtain ⟨hC, hfills⟩ := h.filling C hsome
      exact ⟨hC, by simpa [Received.step, Received.row] using hfills⟩

/-- A buffer for vectors of no values. -/
theorem setSizes_empty (b : Buffer α) {W : Nat} (hW : 1 ≤ W) :
    ∃ b₀, b.setSizes W 0 = some b₀ ∧ b₀.mWindowSize = W ∧ b₀.mBuffer.mColCount = 0 := by
  obtain ⟨b₀, hsizes, hslides⟩ := b.setSizes_slides (W := W) (C := 0) (w := fun _ _ => 0) hW
    fun _ _ _ => rfl
  obtain ⟨v, hv, -⟩ := hslides.rows
  exact ⟨b₀, hsizes, hslides.windowSize, hv.colCount⟩

/-- The first row after the sizes were set. -/
theorem follows_of_sizes (b : Buffer α) {W C : Nat} (hW : 1 ≤ W) (hC : 1 ≤ C) :
    ∃ b₀ cell b₁, b.setSizes W C = some b₀ ∧ b₀.mWindowSize = W ∧ b₀.mBuffer.mColCount = C ∧
      b₀.advance = some (some cell, b₁) ∧
      Follows (⟨b₁, some cell, 0⟩ : BufferStream α) ⟨W, some C, []⟩ := by
  obtain ⟨b₀, cell, b₁, hsizes, hwindow, hcols, hadvance, hfills⟩ :=
    BufferStream.setSizes_fills b (fun i => (([] : List α)[i]?).getD 0) hW hC
  refine ⟨b₀, cell, b₁, hsizes, hwindow, hcols, hadvance, hW, fun hnone => (by cases hnone),
    fun C' hsome => ?_⟩
  obtain rfl := Option.some.inj hsome
  exact ⟨hC, hfills⟩

omit [Inhabited α] in
theorem Follows.windowSize (h : Follows s r) : s.mBuffer.mWindowSize = r.window := by
  cases hcolumns : r.columns with
  | none => exact (h.waiting hcolumns).2.1
  | some C =>
    obtain ⟨-, first, row, -, hshows, -⟩ := (h.filling C hcolumns).2
    exact hshows.windowSize

omit [Inhabited α] in
theorem Follows.colCount (h : Follows s r) :
    s.mBuffer.mBuffer.mColCount = r.columns.getD 0 := by
  cases hcolumns : r.columns with
  | none => exact (h.waiting hcolumns).2.2.1
  | some C =>
    obtain ⟨-, first, row, -, hshows, -⟩ := (h.filling C hcolumns).2
    obtain ⟨v, hv, -⟩ := hshows.rows
    exact hv.colCount

/-- The parameter `buffer`. -/
theorem Follows.setWindow_eq (h : Follows s r) {window : Option Nat}
    (hwindow : ∀ size ∈ window, 1 ≤ size) :
    ∃ b₁, setWindow s.mBuffer window = some b₁ ∧ b₁.mWindowSize = window.getD r.window := by
  cases window with
  | none => exact ⟨s.mBuffer, rfl, h.windowSize⟩
  | some size =>
    rw [setWindow, h.colCount]
    cases hcolumns : r.columns with
    | none =>
      obtain ⟨b₀, hsizes, hwindow₀, -⟩ := setSizes_empty s.mBuffer (hwindow size rfl)
      exact ⟨b₀, hsizes, hwindow₀⟩
    | some C =>
      obtain ⟨b₀, -, -, hsizes, hwindow₀, -⟩ :=
        follows_of_sizes s.mBuffer (hwindow size rfl) (h.filling C hcolumns).1
      exact ⟨b₀, hsizes, hwindow₀⟩

/-- New sizes. -/
theorem Follows.set_follows (h : Follows s r) {window vector : Option Nat}
    (hproper : Action.Proper (α := α) (.set window vector)) :
    ∃ s', set s window vector = some s' ∧ Follows s' (r.step (.set window vector)) := by
  obtain ⟨hwindow, hvector, hgiven⟩ := hproper
  have hW : 1 ≤ window.getD r.window := by
    cases window with
    | none => exact h.window
    | some size => exact hwindow size rfl
  -- with vectors of `C` values there is a row to write to
  have hready {b₀ : Buffer α} {C : Nat} (hsize : b₀.mWindowSize = window.getD r.window)
      (hC : 1 ≤ C) (hcols : b₀.mBuffer.mColCount = C) :
      b₀.mWindowSize * b₀.mBuffer.mColCount ≠ 0 := by
    rw [hsize, hcols]
    exact Nat.ne_of_gt (Nat.mul_pos hW hC)
  cases vector with
  | some C =>
    have hC : 1 ≤ C := hvector C rfl
    obtain ⟨b₁, hb₁, hsize₁⟩ := h.setWindow_eq hwindow
    obtain ⟨b₀, cell, b₂, hsizes, hsize₀, hcols₀, hadvance, hfollows⟩ := follows_of_sizes b₁ hW hC
    refine ⟨⟨b₂, some cell, 0⟩, ?_, hfollows⟩
    simp only [set, hb₁, Option.bind_eq_bind, Option.bind_some, setVector, hsize₁, hsizes,
      if_pos (hready hsize₀ hC hcols₀), hadvance]
  | none =>
    obtain ⟨size, rfl⟩ : ∃ size, window = some size :=
      Option.isSome_iff_exists.mp (by simpa using hgiven)
    cases hcolumns : r.columns with
    | none =>
      obtain ⟨b₀, hsizes, hsize₀, hcols₀⟩ := setSizes_empty s.mBuffer hW
      obtain ⟨hmVector, -⟩ := h.waiting hcolumns
      refine ⟨⟨b₀, s.mVector, 0⟩, ?_, hW, fun _ => ⟨hmVector, hsize₀, hcols₀, rfl⟩,
        fun C hsome => ?_⟩
      · have hsizes' : s.mBuffer.setSizes size s.mBuffer.mBuffer.mColCount = some b₀ := by
          rw [h.colCount, hcolumns]
          exact hsizes
        simp [set, setWindow, setVector, hsizes', hcols₀]
      · rw [Received.step, hcolumns] at hsome
        cases hsome
    | some C =>
      have hC := (h.filling C hcolumns).1
      obtain ⟨b₀, cell, b₂, hsizes, hsize₀, hcols₀, hadvance, hfollows⟩ :=
        follows_of_sizes s.mBuffer hW hC
      refine ⟨⟨b₂, some cell, 0⟩, ?_, ?_⟩
      · have hsizes' : s.mBuffer.setSizes size s.mBuffer.mBuffer.mColCount = some b₀ := by
          rw [h.colCount, hcolumns]
          exact hsizes
        simp only [set, setWindow, setVector, hsizes', Option.bind_eq_bind, Option.bind_some,
          if_pos (hready hsize₀ hC hcols₀), hadvance]
      · simpa [Received.step, hcolumns] using hfollows

/-- A new object. -/
theorem init_follows (memory : Nat × Nat) :
    ∃ s : BufferStream α, init memory = some s ∧ Follows s ⟨8, none, []⟩ := by
  obtain ⟨b₀, hsizes, hsize, hcols⟩ :=
    setSizes_empty (Buffer.unset memory.1 memory.2 : Buffer α) (W := 8) (by decide)
  have height : 1 ≤ 8 := by decide
  exact ⟨⟨b₀, none, 0⟩, by rw [init, hsizes]; rfl, height, fun _ => ⟨rfl, hsize, hcols, rfl⟩,
    fun C hsome => by cases hsome⟩

/-! ## Whole runs -/

theorem Follows.run_follows (h : Follows s r) {actions : List (Action α)}
    (hproper : ∀ action ∈ actions, action.Proper) :
    ∃ s', actions.foldlM step s = some s' ∧ Follows s' (actions.foldl Received.step r) := by
  induction actions generalizing s r with
  | nil => exact ⟨s, rfl, h⟩
  | cons action actions ih =>
    obtain ⟨s₁, hstep, hfollows⟩ : ∃ s₁, step s action = some s₁ ∧ Follows s₁ (r.step action) := by
      cases action with
      | bang val =>
        obtain ⟨s₁, hbang, hfollows⟩ := h.bang_follows (hproper _ List.mem_cons_self)
        exact ⟨s₁, by rw [step, hbang]; rfl, hfollows⟩
      | set window vector => exact h.set_follows (hproper _ List.mem_cons_self)
    obtain ⟨s', hrun, hfollows'⟩ := ih hfollows fun a ha => hproper a (List.mem_cons_of_mem _ ha)
    exact ⟨s', by rw [List.foldlM_cons, hstep]; exact hrun, hfollows'⟩

end BufferNode

end Rubyk
