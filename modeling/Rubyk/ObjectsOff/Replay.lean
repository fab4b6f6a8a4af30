/-
  ObjectsOff/Replay.lean --- `Replay` of `src/objects_off/Replay.cpp`: recording matrices
  into a file.

  Whether the file is open is known by `mFileHandle` only.  `enter` closes the file when
  another mode than recording begins, and leaves the handle as it is: from then on the
  handle is one of a closed file, and whatever comes next uses it, the destructor at the
  latest (`recording_iff`).

  WHAT IS MODELLED.  `init`, `enter`, `record_matrix`, the destructor, and `bang` on a matrix
  while recording; in the other modes a matrix is not recorded.  `TRY` returns when the call
  has failed.  The sizes of `mData` are those of `Core/TMatrix.lean`.

  FILES.  `fopen` answers a handle or none.  The C library knows the files that are open,
  here with the number of the recording that opened them; using any other handle is
  undefined.

  HISTORY.  `recordings`, `received` and `written` are read by no method.
-/
import Rubyk.Core.TMatrixSizes

set_option autoImplicit false

namespace Rubyk

open Lib TMatrix.SizeT

/-- `replay_modes_t`. -/
inductive ReplayMode where
  | waiting
  | playback
  | recording
  deriving DecidableEq, Repr

/-- `Replay`. -/
structure Replay (α : Type) where
  mState : ReplayMode
  mFileHandle : Option Nat
  mData : TMatrix α
  /-- the files that are open, and the recording that opened them -/
  files : List (Nat × Nat)
  recordings : Nat
  received : List (Nat × TMatrix α)
  written : List (Nat × TMatrix α)
  deriving DecidableEq, Repr

namespace Replay

/-- How a call can be undefined. -/
inductive Fault where
  | closedFile
  | memory
  deriving DecidableEq, Repr

section Methods

variable {α : Type} [Inhabited α] [Zero α]

/-- `init`. -/
def init : Replay α :=
  ⟨.waiting, none, (⟨[], 0, 0, "no error"⟩ : TMatrix α).setSizes 0 0, [], 0, [], []⟩

/-- `fclose`. -/
def fclose (r : Replay α) (handle : Nat) : Except Fault (Replay α) :=
  match r.files.lookup handle with
  | none => .error .closedFile
  | some _ => .ok { r with files := r.files.filter fun file => file.1 ≠ handle }

/-- `~Replay`. -/
def destroy (r : Replay α) : Except Fault (Replay α) :=
  match r.mFileHandle with
  | none => .ok r
  | some handle => r.fclose handle

/-- The first line of `enter`. -/
def closeFile (r : Replay α) (pMode : ReplayMode) : Except Fault (Replay α) :=
  match r.mFileHandle with
  | none => .ok r
  | some handle => if pMode ≠ .recording then r.fclose handle else .ok r

/-- `enter`. -/
def enter (r : Replay α) (pMode : ReplayMode) : Except Fault (Replay α) := do
  let r ← r.closeFile pMode
  match pMode with
  | .playback => .ok { r with mState := .playback }
  | .recording =>
      if r.mState = .recording then .ok r
      else
        match (r.mData.setSizes 0 r.mData.mColCount).clear with
        | none => .error .memory
        | some mData =>
            .ok { r with mData := mData, mState := .recording, recordings := r.recordings + 1 }
  | .waiting => .ok { r with mState := .waiting }

/-- The end of `record_matrix`: `append`, and `to_file` with the handle. -/
def writeMatrix (r : Replay α) (handle : Nat) (pLiveView : TMatrix α) :
    Except Fault (Bool × Replay α) :=
  let size := pLiveView.mRowCount * pLiveView.mColCount
  match (loads pLiveView.data 0 size).bind (r.mData.rawCopy r.mData.mRowCount · false) with
  | none => .error .memory
  | some (false, mData) => .ok (false, { r with mData := mData })
  | some (true, mData) =>
      match r.files.lookup handle with
      | none => .error .closedFile
      | some recording =>
          .ok (true, { r with
            mData := mData
            written := r.written ++ [(recording, pLiveView)] })

/-- `record_matrix`; `fopen` is what it answers if it is called. -/
def recordMatrix (r : Replay α) (pLiveView mLiveBuffer : TMatrix α) (fopen : Option Nat) :
    Except Fault (Bool × Replay α) :=
  match r.mFileHandle with
  | some handle => r.writeMatrix handle pLiveView
  | none =>
      -- start recording
      let mData :=
        -- set vector size
        if r.mData.mColCount = 0 then r.mData.setSizes 0 mLiveBuffer.mColCount else r.mData
      match fopen with
      | none => .ok (false, { r with mData := mData })
      | some handle =>
          { r with
            mData := mData
            mFileHandle := some handle
            files := (handle, r.recordings) :: r.files }.writeMatrix handle pLiveView

omit [Inhabited α] [Zero α] in
/-- `set_view` of all rows: the view, unless there is an error. -/
def setView (other : TMatrix α) : Option (TMatrix α) :=
  if other.mRowCount = 1 then
    -- vector
    if other.mColCount ≤ 0 then none
    else some { other with mColCount := other.mColCount - 1 - 0 + 1 }
  else
    match other.checkSizes "set_view" other 0 (-1) true with
    | .rows first last => some { other with
        data := other.data.drop (first * other.mColCount)
        mRowCount := last - first + 1 }
    | _ => none

/-- `bang` on a matrix. -/
def bang (r : Replay α) (val : TMatrix α) (fopen : Option Nat) : Except Fault (Replay α) :=
  if r.mState = .recording then
    let r := { r with received := r.received ++ [(r.recordings, val)] }
    match setView val with
    | none => .ok r
    | some mPlaybackView => (r.recordMatrix mPlaybackView val fopen).map Prod.snd
  else .ok r

/-- The calls. -/
inductive Call (α : Type) where
  | play
  | record
  | matrix (val : OwnedMatrix α) (fopen : Option Nat)

def step (r : Replay α) : Call α → Except Fault (Replay α)
  | .play => r.enter .playback
  | .record => r.enter .recording
  | .matrix val fopen => r.bang val.toTMatrix fopen

end Methods

/-! ## What a recording should do -/

section Recording

variable {α : Type} [Inhabited α] [Zero α] {r r' : Replay α} {handle : Nat}

/-- The calls, and the destruction after them: all are defined, and each matrix that is received is
written to a file that its recording has opened. -/
def Records : Replay α → List (Call α) → Prop
  | r, [] => ∃ r', r.destroy = .ok r'
  | r, call :: calls => ∃ r', step r call = .ok r' ∧ r'.written = r'.received ∧ Records r' calls

/-- The condition on a call: no playback once a file was opened, and a matrix that is recorded has
cells and gets a file. -/
def Keeps (r : Replay α) : Call α → Prop
  | .play => r.mFileHandle = none
  | .record => True
  | .matrix val fopen => r.mState = .recording →
      (1 ≤ val.mRowCount ∧ 1 ≤ val.mColCount) ∧ (r.mFileHandle = none → fopen ≠ none)

/-- What is known as long as no file was closed: a file that was opened belongs to the recording
that is on. -/
structure Inv (r : Replay α) : Prop where
  closed : r.mFileHandle = none → r.files = []
  opened : ∀ handle, r.mFileHandle = some handle → r.mState = .recording ∧
    r.files = [(handle, r.recordings)] ∧ r.mData.mColCount ≠ 0
  written : r.written = r.received

omit [Inhabited α] [Zero α] in
theorem setView_eq (val : TMatrix α) :
    setView val = if 1 ≤ val.mRowCount ∧ 1 ≤ val.mColCount then some val else none := by
  unfold setView
  by_cases hone : val.mRowCount = 1
  · rw [if_pos hone]
    by_cases hcols : val.mColCount ≤ 0
    · rw [if_pos hcols, if_neg (by omega)]
    · have hsame : val.mColCount - 1 - 0 + 1 = val.mColCount := by omega
      rw [if_neg hcols, if_pos (by omega), hsame]
  · have hlast : val.rowIndex (-1) = val.mRowCount - 1 := rfl
    have hfirst : val.rowIndex 0 = 0 := rfl
    rw [if_neg hone]
    simp only [TMatrix.checkSizes, hfirst, hlast]
    by_cases hrows : val.mRowCount = 0
    · rw [if_pos (by omega), if_neg (by omega)]
    · by_cases hcols : val.mColCount = 0
      · rw [if_neg (by omega), if_neg (by omega), if_neg (by simp), if_pos hcols, if_neg (by omega)]
      · have hsame : ((val.mRowCount : Int) - 1).toNat - (0 : Int).toNat + 1 = val.mRowCount := by
          omega
        rw [if_neg (by omega), if_neg (by omega), if_neg (by simp), if_neg hcols, if_pos (by omega)]
        simp only [hsame]
        rw [Int.toNat_zero, Nat.zero_mul, List.drop_zero]

omit [Zero α] in
/-- A matrix is added to the data and written to the file. -/
theorem writeMatrix_open {n : Nat} (hcols : r.mData.mColCount ≠ 0)
    (hopen : r.files.lookup handle = some n) (val : OwnedMatrix α) :
    ∃ mData, r.writeMatrix handle val.toTMatrix =
        .ok (true, { r with mData := mData, written := r.written ++ [(n, val.toTMatrix)] }) ∧
      mData.mColCount ≠ 0 := by
  have hin : 0 + val.mRowCount * val.mColCount ≤ val.data.length := by
    rw [Nat.zero_add]
    exact val.owned.cells
  obtain ⟨xs, hxs, -, -⟩ := loads_spec hin
  obtain ⟨mData, hcopy, hsame⟩ := TMatrix.exists_rawCopy hcols r.mData.mRowCount xs
  refine ⟨mData, ?_, by rwa [hsame]⟩
  rw [writeMatrix, hxs, Option.bind_some, hcopy]
  simp only [hopen]

omit [Zero α] in
/-- With the handle of a closed file, nothing is written. -/
theorem writeMatrix_closed (hclosed : r.files.lookup handle = none) (val : TMatrix α) :
    (∃ e, r.writeMatrix handle val = .error e) ∨
      ∃ mData, r.writeMatrix handle val = .ok (false, { r with mData := mData }) := by
  simp only [writeMatrix, hclosed]
  split
  · exact Or.inl ⟨_, rfl⟩
  · exact Or.inr ⟨_, rfl⟩
  · exact Or.inl ⟨_, rfl⟩

/-! ## The calls -/

omit [Inhabited α] [Zero α] in
theorem closeFile_recording (r : Replay α) : r.closeFile .recording = .ok r := by
  unfold closeFile
  split
  · rfl
  · exact if_neg (not_not.mpr rfl)

omit [Zero α] in
/-- A matrix with cells is recorded, if there is a file for it. -/
theorem bang_inv (h : Inv r) (hstate : r.mState = .recording) (val : OwnedMatrix α)
    (hcells : 1 ≤ val.mRowCount ∧ 1 ≤ val.mColCount) {fopen : Option Nat}
    (hopens : r.mFileHandle = none → fopen ≠ none) :
    ∃ r', r.bang val.toTMatrix fopen = .ok r' ∧ Inv r' := by
  rw [bang, if_pos hstate, setView_eq, if_pos hcells]
  simp only [recordMatrix]
  cases hhandle : r.mFileHandle with
  | some handle =>
    obtain ⟨-, hfiles, hcols⟩ := h.opened handle hhandle
    have hlookup : r.files.lookup handle = some r.recordings := by
      rw [hfiles, List.lookup_cons_self]
    obtain ⟨mData, hwrite, hcols'⟩ := writeMatrix_open
      (r := { r with received := r.received ++ [(r.recordings, val.toTMatrix)] }) hcols hlookup val
    simp only [hhandle] at hwrite ⊢
    rw [hwrite]
    refine ⟨_, rfl, fun hnone => ?_, fun handle' hsome => ?_, ?_⟩
    · cases hnone
    · obtain rfl := Option.some.inj hsome
      exact ⟨hstate, hfiles, hcols'⟩
    · rw [h.written]
  | none =>
    obtain ⟨handle, rfl⟩ := Option.ne_none_iff_exists'.mp (hopens hhandle)
    obtain ⟨mData, hmData⟩ : ∃ mData, mData = if r.mData.mColCount = 0
        then r.mData.setSizes 0 val.mColCount else r.mData := ⟨_, rfl⟩
    have hcols : mData.mColCount ≠ 0 := by
      rw [hmData]
      split
      · exact Nat.ne_of_gt hcells.2
      · next hcols => exact hcols
    obtain ⟨mData', hwrite, hcols'⟩ := writeMatrix_open
      (r := { r with
        received := r.received ++ [(r.recordings, val.toTMatrix)]
        mData := mData
        mFileHandle := some handle
        files := (handle, r.recordings) :: r.files }) hcols List.lookup_cons_self val
    simp only [← hmData]
    rw [hwrite]
    refine ⟨_, rfl, fun hnone => ?_, fun handle' hsome => ?_, ?_⟩
    · cases hnone
    · obtain rfl := Option.some.inj hsome
      exact ⟨hstate, by simp only [h.closed hhandle], hcols'⟩
    · rw [h.written]

/-- A call under the condition. -/
theorem step_inv {call : Call α} (h : Inv r) (hkeeps : Keeps r call) :
    ∃ r', step r call = .ok r' ∧ Inv r' := by
  cases call with
  | play =>
    have hnone : r.mFileHandle = none := hkeeps
    refine ⟨{ r with mState := .playback }, ?_, h.closed, fun handle hsome => ?_, h.written⟩
    · simp only [step, enter, closeFile, hnone, ok_bind]
    · rw [hnone] at hsome
      cases hsome
  | record =>
    simp only [step, enter, closeFile_recording, ok_bind]
    by_cases hstate : r.mState = .recording
    · rw [if_pos hstate]
      exact ⟨r, rfl, h⟩
    · obtain ⟨mData, hclear, -⟩ :=
        TMatrix.clear_setSizes_describes r.mData 0 r.mData.mColCount
      rw [if_neg hstate, hclear]
      refine ⟨_, rfl, h.closed, fun handle hsome => ?_, h.written⟩
      exact absurd (h.opened handle hsome).1 hstate
  | matrix val fopen =>
    by_cases hstate : r.mState = .recording
    · obtain ⟨hcells, hopens⟩ := hkeeps hstate
      exact bang_inv h hstate val hcells hopens
    · exact ⟨r, if_neg hstate, h⟩

/-- The handle is one of a closed file. -/
def Stale (r : Replay α) : Prop := ∃ handle, r.mFileHandle = some handle ∧
  r.files.lookup handle = none

/-- The handle stays as it is, or is used. -/
theorem step_stale {call : Call α} (h : Stale r) (hstep : step r call = .ok r') : Stale r' := by
  obtain ⟨handle, hhandle, hclosed⟩ := h
  cases call with
  | play =>
    simp only [step, enter, closeFile, hhandle, fclose, hclosed] at hstep
    cases hstep
  | record =>
    simp only [step, enter, closeFile_recording, ok_bind] at hstep
    split at hstep
    · cases hstep
      exact ⟨handle, hhandle, hclosed⟩
    · split at hstep
      · cases hstep
      · cases hstep
        exact ⟨handle, hhandle, hclosed⟩
  | matrix val fopen =>
    simp only [step, bang] at hstep
    split at hstep
    · split at hstep
      · cases hstep
        exact ⟨handle, hhandle, hclosed⟩
      · next mPlaybackView _ =>
        simp only [recordMatrix, hhandle] at hstep
        rcases writeMatrix_closed
          (r := { r with received := r.received ++ [(r.recordings, val.toTMatrix)] })
          hclosed mPlaybackView with ⟨e, herror⟩ | ⟨mData, hkept⟩
        · simp only [hhandle] at herror
          rw [herror] at hstep
          cases hstep
        · simp only [hhandle] at hkept
          rw [hkept] at hstep
          cases hstep
          exact ⟨handle, rfl, hclosed⟩
    · cases hstep
      exact ⟨handle, hhandle, hclosed⟩

/-- A closed file is used in the end, by the destructor at the latest. -/
theorem not_records_of_stale {calls : List (Call α)} (h : Stale r) : ¬ Records r calls := by
  induction calls generalizing r with
  | nil =>
    rintro ⟨r', hdestroy⟩
    obtain ⟨handle, hhandle, hclosed⟩ := h
    simp only [destroy, hhandle, fclose, hclosed] at hdestroy
    cases hdestroy
  | cons call calls ih =>
    rintro ⟨r', hstep, -, hrest⟩
    exact ih (step_stale h hstep) hrest

/-- A call against the condition closes the file too early, or loses a matrix. -/
theorem not_records_of_not_keeps {call : Call α} {calls : List (Call α)} (h : Inv r)
    (hkeeps : ¬ Keeps r call) : ¬ Records r (call :: calls) := by
  rintro ⟨r', hstep, hwritten, hrest⟩
  cases call with
  | play =>
    obtain ⟨handle, hhandle⟩ := Option.ne_none_iff_exists'.mp hkeeps
    obtain ⟨-, hfiles, -⟩ := h.opened handle hhandle
    have hlookup : r.files.lookup handle = some r.recordings := by
      rw [hfiles, List.lookup_cons_self]
    simp only [step, enter, closeFile, hhandle, fclose, hlookup] at hstep
    cases hstep
    refine not_records_of_stale ⟨handle, rfl, ?_⟩ hrest
    simp [hfiles]
  | record => exact hkeeps trivial
  | matrix val fopen =>
    have hlost : r.written ≠ r.received ++ [(r.recordings, val.toTMatrix)] := by
      rw [h.written]
      exact fun heq => List.cons_ne_nil _ _ (List.self_eq_append_right.mp heq)
    simp only [Keeps, Classical.not_imp, not_and_or] at hkeeps
    obtain ⟨hstate, hkeeps⟩ := hkeeps
    rw [step, bang, if_pos hstate, setView_eq] at hstep
    by_cases hcells : 1 ≤ val.mRowCount ∧ 1 ≤ val.mColCount
    · obtain ⟨hhandle, hfopen⟩ :=
        hkeeps.resolve_left (not_or.mpr ⟨not_not.mpr hcells.1, not_not.mpr hcells.2⟩)
      rw [not_not] at hfopen
      rw [if_pos hcells] at hstep
      simp only [recordMatrix, hhandle, hfopen] at hstep
      cases hstep
      exact hlost hwritten
    · rw [if_neg hcells] at hstep
      cases hstep
      exact hlost hwritten

theorem records_iff {calls : List (Call α)} (h : Inv r) :
    Records r calls ↔ Meets step Keeps r calls := by
  induction calls generalizing r with
  | nil =>
    refine iff_of_true ?_ trivial
    cases hhandle : r.mFileHandle with
    | none => exact ⟨r, by rw [destroy, hhandle]⟩
    | some handle =>
      have hlookup : r.files.lookup handle = some r.recordings := by
        rw [(h.opened handle hhandle).2.1, List.lookup_cons_self]
      exact ⟨_, by rw [destroy, hhandle]; simp only [fclose, hlookup]; rfl⟩
  | cons call calls ih =>
    by_cases hkeeps : Keeps r call
    · obtain ⟨t, ht, hinv⟩ := step_inv h hkeeps
      constructor
      · rintro ⟨r', hr', -, hrest⟩
        refine ⟨hkeeps, fun u hu => ?_⟩
        obtain rfl := Except.ok.inj (hr'.symm.trans hu)
        obtain rfl := Except.ok.inj (ht.symm.trans hr')
        exact (ih hinv).mp hrest
      · rintro ⟨-, hrest⟩
        exact ⟨t, ht, hinv.written, (ih hinv).mpr (hrest t ht)⟩
    · exact iff_of_false (not_records_of_not_keeps h hkeeps) fun hmeets => hkeeps hmeets.1

omit [Zero α] in
theorem inv_init : Inv (init : Replay α) := ⟨fun _ => rfl, (fun _ h => nomatch h), rfl⟩

/-- From `init` to the destruction, files and matrices are handled well exactly when each call meets
the condition. -/
theorem recording_iff (calls : List (Call α)) :
    Records init calls ↔ Meets step Keeps init calls :=
  records_iff inv_init

end Recording

/-- A matrix of one value. -/
def oneValue : OwnedMatrix Int := ⟨⟨[7], 1, 1, "no error"⟩, ⟨by decide, by decide⟩⟩

/-- Recording, playing what was recorded, and the destruction: the file is closed twice. -/
theorem played_recording_closes_twice :
    (∃ r, [Call.record, .matrix oneValue (some 3), .play].foldlM step init = .ok r ∧
      r.destroy = .error .closedFile) ∧
      ¬ Records init [.record, .matrix oneValue (some 3), .play] := by
  refine ⟨⟨_, rfl, rfl⟩, ?_⟩
  rw [records_iff inv_init]
  rintro ⟨-, hrest⟩
  obtain ⟨-, hrest⟩ := hrest _ rfl
  obtain ⟨hplay, -⟩ := hrest _ rfl
  cases hplay

end Replay

end Rubyk
