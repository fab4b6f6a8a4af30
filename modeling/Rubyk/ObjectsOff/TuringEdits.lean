/-
  ObjectsOff/TuringEdits.lean --- the current state of a machine while its script is
  edited.

  `eval_script` looks for the state of the old name, but it takes that name from the
  tables of the edit before, and these may be those of a script that was rejected: the
  number of the state stays and the names change.  So the name is kept exactly when the
  number still stands for it, or for another name that leads to the same state
  (`KeepsName`, `keeps_name_iff`).

  The machine may be any that a run leads to: its names are those of some script.
-/
import Rubyk.ObjectsOff.TuringRuns

set_option autoImplicit false

namespace Rubyk

open Lib

namespace Turing

/-! ## States by name -/

/-- The machine is in the state of this name. -/
def InState (m : Turing) (n : String) : Prop :=
  ∃ i : Nat, m.mState = (i + 1 : Nat) ∧ m.mStateNames[i + 1]? = some n

/-- The state that a script with these states should be in: that of the name, or the first. -/
def restored (names : List String) (n : String) : String :=
  if n ∈ names then n else names.headD ""

/-- The edits of a machine with the number `i` and these states keep the name `n` for the last
script: the name that is found leads to the same state. -/
def KeepsName (n : String) (last : TuringScript) (i : Int) (names : List String) :
    List TuringScript → Prop
  | [] =>
      nameAt names i ≠ "-" ∧
        restored (stateNames last.rules) (nameAt names i) = restored (stateNames last.rules) n
  | edit :: edits =>
      if edit.compiles then
        -- a script without states is accepted only after the name `-`, which has the number 0
        nameAt names i = "-" ∧ KeepsName n last 0 [] edits
      else KeepsName n last i (stateNames edit.rules) edits

/-! ## What actions leave alone -/

/-- The tables are the same. -/
def SameTables (m t : Turing) : Prop :=
  ∃ (token i : Int), t = { m with token := token, mState := i }

section Tables

variable {m t u : Turing} {names : List String} {tokens : List Nat} {goto : Nat → Nat → Int}
  {send : Nat → Nat → Option TuringSend}

theorem SameTables.refl (m : Turing) : SameTables m m := ⟨_, _, rfl⟩

theorem SameTables.trans (h : SameTables m t) (h' : SameTables t u) : SameTables m u := by
  obtain ⟨token, i, rfl⟩ := h
  obtain ⟨token', i', rfl⟩ := h'
  exact ⟨token', i', rfl⟩

theorem SameTables.shape (h : SameTables m t) (hshape : m.Shape names tokens goto send) :
    t.Shape names tokens goto send := by
  obtain ⟨token, i, rfl⟩ := h
  exact { hshape with }

theorem setState_sameTables {id : Int} (h : m.setState id = .ok t) : SameTables m t := by
  unfold setState at h
  split at h
  · cases h
  · obtain rfl := Except.ok.inj h
    exact ⟨_, _, rfl⟩

theorem jump_sameTables {name : String} (h : m.jump name = .ok t) : SameTables m t := by
  unfold jump at h
  split at h
  · exact setState_sameTables h
  · obtain rfl := Except.ok.inj h
    exact .refl m

theorem jumps_sameTables {jumps : List String} (h : jumps.foldlM jump m = .ok t) :
    SameTables m t := by
  induction jumps generalizing m with
  | nil =>
    obtain rfl := Except.ok.inj h
    exact .refl m
  | cons name jumps ih =>
    rw [List.foldlM_cons] at h
    obtain ⟨u, hjump, hrest⟩ := exists_of_bind_eq_ok h
    exact (jump_sameTables hjump).trans (ih hrest)

theorem readToken_sameTables {val : Option Int} (h : m.readToken val = .ok t) :
    SameTables m t := by
  by_cases hval : TokenFits val
  · rw [readToken_eq hval] at h
    obtain rfl := Except.ok.inj h
    exact ⟨_, _, rfl⟩
  · rw [readToken_of_unfit hval] at h
    cases h

theorem restoreState_sameTables {old : String} (h : m.restoreState old = .ok t) :
    SameTables m t := by
  unfold restoreState at h
  split at h
  · exact setState_sameTables h
  · split at h
    · obtain rfl := Except.ok.inj h
      exact ⟨_, _, rfl⟩
    · exact setState_sameTables h

theorem react_sameTables {out : Option TuringSend × Turing} (h : m.react = .ok out) :
    SameTables m out.2 := by
  obtain ⟨send, -, h⟩ := exists_of_bind_eq_ok h
  obtain ⟨state, -, h⟩ := exists_of_bind_eq_ok h
  cases send with
  | none => cases h
  | some send =>
    obtain rfl := Except.ok.inj h
    exact ⟨_, _, rfl⟩

theorem bang_sameTables {val : Option Int} {jumps : List String} {answer : LuaAnswer}
    {out : Option TuringSend × Turing} (h : m.bang val jumps answer = .ok out) :
    SameTables m out.2 := by
  unfold bang at h
  split at h
  · obtain rfl := Except.ok.inj h
    exact .refl m
  · obtain ⟨read, hread, h⟩ := exists_of_bind_eq_ok h
    have hsame := readToken_sameTables hread
    split at h
    · obtain rfl := Except.ok.inj h
      exact hsame
    · obtain ⟨jumped, hjumps, h⟩ := exists_of_bind_eq_ok h
      have hsame := hsame.trans (jumps_sameTables hjumps)
      cases answer with
      | nil =>
        obtain rfl := Except.ok.inj h
        exact hsame
      | bang => exact hsame.trans (react_sameTables h)
      | value token =>
        obtain ⟨read', hread', h⟩ := exists_of_bind_eq_ok h
        exact (hsame.trans (readToken_sameTables hread')).trans (react_sameTables h)

/-- The tables of a machine are those of a script. -/
def HasScript (m : Turing) : Prop :=
  ∃ rules tokens goto send, m.Shape (stateNames rules) tokens goto send

theorem SameTables.hasScript (h : SameTables m t) (hscript : m.HasScript) : t.HasScript := by
  obtain ⟨rules, tokens, goto, send, hshape⟩ := hscript
  exact ⟨rules, tokens, goto, send, h.shape hshape⟩

/-- Every action leaves a machine with the tables of a script. -/
theorem step_hasScript {a : Action} (h : m.HasScript) (hstep : m.step a = .ok t) :
    t.HasScript := by
  cases a with
  | setScript script =>
    obtain ⟨rules, tokens, goto, send, hshape⟩ := h
    by_cases hs : script.compiles = true
    · obtain ⟨compiled, hcompiled, -, -, hrun⟩ := setScript_of_compiles hshape hs
      obtain ⟨u, hrestore, h⟩ := exists_of_bind_eq_ok (hrun.symm.trans hstep)
      obtain rfl := Except.ok.inj h
      have hu := (restoreState_sameTables hrestore).shape hcompiled
      exact ⟨script.rules, _, _, _, { hu with }⟩
    · obtain ⟨u, tokens', goto', send', hrun, hu, -⟩ :=
        setScript_of_not_compiles hshape (Bool.not_eq_true _ ▸ hs)
      obtain rfl := Except.ok.inj (hrun.symm.trans hstep)
      exact ⟨script.rules, tokens', goto', send', hu⟩
  | bang val jumps answer =>
    obtain ⟨out, hbang, h'⟩ := exists_of_bind_eq_ok hstep
    obtain rfl := Except.ok.inj h'
    exact (bang_sameTables hbang).hasScript h
  | setState id => exact (setState_sameTables hstep).hasScript h
  | jump name => exact (jump_sameTables hstep).hasScript h

/-- So every machine that a run leads to has the tables of a script. -/
theorem reachable_hasScript {isOk : Bool} {actions : List Action}
    (h : Run (StepOf step) (init isOk) actions m) : m.HasScript :=
  h.invariant HasScript (fun _ _ _ hscript hstep => step_hasScript hscript hstep)
    ⟨[], _, _, _, clearTables_shape _⟩

end Tables

/-! ## Edits -/

section Edits

variable {m t : Turing} {names : List String} {tokens : List Nat} {goto : Nat → Nat → Int}
  {send : Nat → Nat → Option TuringSend} {script : TuringScript}

/-- The state that a script starts in has the restored name. -/
theorem landing_name (hne : names ≠ []) (old : String) :
    ∃ k : Nat, landing names old = (k + 1 : Nat) ∧ names[k]? = some (restored names old) := by
  unfold landing restored
  by_cases hmem : old ∈ names
  · rw [if_pos hmem, if_pos hmem]
    exact ⟨names.idxOf old, rfl, List.getElem?_idxOf hmem⟩
  · rw [if_neg hmem, if_neg hmem]
    refine ⟨0, rfl, ?_⟩
    cases names with
    | nil => exact absurd rfl hne
    | cons name names => rfl

/-- After the name `-` the machine gets the number 0. -/
theorem Shape.restoreState_dash (h : m.Shape names tokens goto send) :
    m.restoreState "-" = .ok { m with mState := 0 } := by
  rw [restoreState, if_neg (by decide), h.byName, if_pos rfl]

/-- A script that compiles and names a state. -/
theorem setScript_inState_iff (h : m.Shape names tokens goto send)
    (hs : script.compiles = true) (hne : stateNames script.rules ≠ []) (n : String) :
    (∃ t, m.setScript script = .ok t ∧ t.InState n) ↔
      nameAt names m.mState ≠ "-" ∧
        restored (stateNames script.rules) (nameAt names m.mState) = n := by
  obtain ⟨t, hcompiled, -, -, hrun⟩ := setScript_of_compiles h hs
  rw [hrun]
  by_cases hold : nameAt names m.mState = "-"
  · rw [hold, hcompiled.restoreState_dash, ok_bind]
    refine iff_of_false ?_ fun hboth => hboth.1 rfl
    rintro ⟨t', ht, i, hi, -⟩
    obtain rfl := Except.ok.inj ht
    change (0 : Int) = (i + 1 : Nat) at hi
    omega
  · rw [hcompiled.restoreState_eq hne (empty_notMem_stateNames _) hold, ok_bind]
    obtain ⟨k, hk, hname⟩ := landing_name hne (nameAt names m.mState)
    have hnames : t.mStateNames[k + 1]? =
        some (restored (stateNames script.rules) (nameAt names m.mState)) := by
      rw [hcompiled.stateNames, List.getElem?_cons_succ, hname]
    constructor
    · rintro ⟨t', ht, i, hi, hin⟩
      obtain rfl := Except.ok.inj ht
      change landing _ _ = _ at hi
      obtain rfl : k = i := by omega
      exact ⟨hold, Option.some.inj (hnames.symm.trans hin)⟩
    · rintro ⟨-, rfl⟩
      exact ⟨_, rfl, k, hk, hnames⟩

/-- A script that compiles and names no state is a division by zero, but after the name `-`. -/
theorem setScript_of_stateless (h : m.Shape names tokens goto send)
    (hs : script.compiles = true) (hnil : stateNames script.rules = []) :
    if nameAt names m.mState = "-" then
      ∃ t tokens' goto' send', m.setScript script = .ok t ∧ t.Shape [] tokens' goto' send' ∧
        t.mState = 0
    else m.setScript script = .error .divisionByZero := by
  obtain ⟨t, hcompiled, -, -, hrun⟩ := setScript_of_compiles h hs
  rw [Compiled, hnil] at hcompiled
  by_cases hold : nameAt names m.mState = "-"
  · rw [if_pos hold, hrun, hold, hcompiled.restoreState_dash]
    exact ⟨_, _, _, _, rfl, { hcompiled with }, rfl⟩
  · rw [if_neg hold, hrun, hcompiled.restoreState_of_stateless hold]
    rfl

/-- The edits up to the first one that compiles and names a state. -/
theorem edits_inState_iff (h : m.Shape names tokens goto send) {edits : List TuringScript}
    {last : TuringScript}
    (hedits : ∀ edit ∈ edits, edit.compiles = true → stateNames edit.rules = [])
    (hs : last.compiles = true) (hne : stateNames last.rules ≠ []) (n : String) :
    (∃ t, (edits ++ [last]).foldlM setScript m = .ok t ∧
        t.InState (restored (stateNames last.rules) n)) ↔
      KeepsName n last m.mState names edits := by
  induction edits generalizing m names tokens goto send with
  | nil =>
    rw [List.nil_append, List.foldlM_cons]
    simp only [List.foldlM_nil, bind_pure]
    exact setScript_inState_iff h hs hne _
  | cons edit edits ih =>
    have hrest : ∀ e ∈ edits, e.compiles = true → stateNames e.rules = [] := fun e he =>
      hedits e (List.mem_cons_of_mem _ he)
    rw [List.cons_append, List.foldlM_cons, KeepsName]
    by_cases hedit : edit.compiles = true
    · have hcases := setScript_of_stateless h hedit (hedits edit (by simp) hedit)
      rw [if_pos hedit]
      by_cases hold : nameAt names m.mState = "-"
      · rw [if_pos hold] at hcases
        obtain ⟨u, tokens', goto', send', hrun, hu, hzero⟩ := hcases
        rw [hrun, ok_bind, ih hu hrest, hzero]
        exact (and_iff_right hold).symm
      · rw [if_neg hold] at hcases
        rw [hcases]
        exact iff_of_false (fun ⟨_, ht, _⟩ => nomatch ht) fun hboth => hold hboth.1
    · obtain ⟨u, tokens', goto', send', hrun, hu, -, -, hstate⟩ :=
        setScript_of_not_compiles h (Bool.not_eq_true _ ▸ hedit)
      rw [if_neg hedit, hrun, ok_bind, ih hu hrest, hstate]

/-- The name that is looked up is that of the state, if no edit was rejected before. -/
theorem InState.nameAt_eq (h : m.Shape names tokens goto send) {n : String} (hn : m.InState n) :
    n ∈ names ∧ nameAt names m.mState = n := by
  obtain ⟨i, hi, hname⟩ := hn
  rw [h.stateNames, List.getElem?_cons_succ] at hname
  obtain ⟨hlt, rfl⟩ := List.getElem?_eq_some_iff.mp hname
  exact ⟨List.getElem_mem hlt, hi ▸ Turing.nameAt_eq hlt⟩

theorem restored_eq_head {names : List String} (hne : names ≠ []) (n : String) :
    restored names n = if n ∈ names then n else names.head hne := by
  rw [restored, List.headD_eq_head?_getD, List.head?_eq_some_head hne]
  rfl

end Edits

/-- One edit of a machine in a state keeps the name. -/
theorem edit_keeps_name {isOk : Bool} {actions : List Action} {m : Turing} {script : TuringScript}
    (hrun : Run (StepOf step) (init isOk) actions m) (hs : script.compiles = true)
    (hne : stateNames script.rules ≠ []) {n : String} (hn : m.InState n) :
    ∃ t, m.setScript script = .ok t ∧
      t.InState
        (if n ∈ stateNames script.rules then n else (stateNames script.rules).head hne) := by
  obtain ⟨rules, tokens, goto, send, hshape⟩ := reachable_hasScript hrun
  obtain ⟨hmem, hname⟩ := hn.nameAt_eq hshape
  rw [← restored_eq_head hne]
  refine (setScript_inState_iff hshape hs hne _).mpr ⟨?_, by rw [hname]⟩
  rw [hname]
  rintro rfl
  exact dash_notMem_stateNames rules hmem

/-- After edits that do not compile or name no state, an edit that does both leaves the machine in
the state of the name, or the first, exactly when the edits keep the name. -/
theorem edits_keep_name_iff {isOk : Bool} {actions : List Action} {m : Turing}
    (hrun : Run (StepOf step) (init isOk) actions m) {edits : List TuringScript}
    {last : TuringScript}
    (hedits : ∀ edit ∈ edits, edit.compiles = true → stateNames edit.rules = [])
    (hs : last.compiles = true) (hne : stateNames last.rules ≠ []) (n : String) :
    (∃ t, (edits ++ [last]).foldlM setScript m = .ok t ∧
        t.InState (if n ∈ stateNames last.rules then n else (stateNames last.rules).head hne)) ↔
      KeepsName n last m.mState m.mStateNames.tail edits := by
  obtain ⟨rules, tokens, goto, send, hshape⟩ := reachable_hasScript hrun
  rw [← restored_eq_head hne, hshape.stateNames, List.tail_cons]
  exact edits_inState_iff hshape hedits hs hne n

/-- The scripts of `test_keep_state_id_changed`: `a -> b` and `b -> b`, -/
def abScript : TuringScript :=
  ⟨[⟨⟨"a", isIdentifier_a⟩, none, none, ⟨"b", isIdentifier_b⟩⟩,
    ⟨⟨"b", isIdentifier_b⟩, none, none, ⟨"b", isIdentifier_b⟩⟩], .accepted true⟩

/-- and `b :20 -> a` and `a :2 -> b`. -/
def baScript : TuringScript :=
  ⟨[⟨⟨"b", isIdentifier_b⟩, none, some (.value 20), ⟨"a", isIdentifier_a⟩⟩,
    ⟨⟨"a", isIdentifier_a⟩, none, some (.value 2), ⟨"b", isIdentifier_b⟩⟩], .accepted true⟩

/-- A rejected edit after which the number 2 still is that of `b`. -/
theorem edits_keep_name_idChanged :
    ∃ m t, Run (StepOf step) (init true)
        [.setScript abScript, .bang (some 1) [] (.value (some 1))] m ∧
      m.InState "b" ∧
      List.foldlM setScript m [⟨abScript.rules, .rejected none⟩, baScript] = .ok t ∧
      t.InState "b" := by
  obtain ⟨m, hfold, hstate, hnames⟩ : ∃ m, [Action.setScript abScript,
      .bang (some 1) [] (.value (some 1))].foldlM step (init true) = .ok m ∧
      m.mState = 2 ∧ m.mStateNames = ["-", "a", "b"] := ⟨_, rfl, rfl, rfl⟩
  have hrun := Run.of_foldlM hfold
  have hkeeps : KeepsName "b" baScript m.mState m.mStateNames.tail
      [⟨abScript.rules, .rejected none⟩] := by
    rw [hstate, hnames, KeepsName, if_neg (by decide), KeepsName]
    decide
  obtain ⟨t, hedits, hin⟩ := (edits_keep_name_iff hrun (by decide) (by decide) (by decide)
    "b").mpr hkeeps
  exact ⟨m, t, hrun, ⟨1, hstate, by rw [hnames]; rfl⟩, hedits, hin⟩

/-- An edit that is rejected before it names a state loses the state `b`: the script that was
there before leads to `a`. -/
theorem rejected_edit_loses_state :
    ∃ m t, Run (StepOf step) (init true)
        [.setScript abScript, .bang (some 1) [] (.value (some 1))] m ∧
      m.InState "b" ∧ "b" ∈ stateNames abScript.rules ∧
      List.foldlM setScript m [⟨[], .rejected none⟩, abScript] = .ok t ∧
      t.InState "a" ∧ ¬ t.InState "b" := by
  obtain ⟨m, t, hfold, hstate, hnames, hedits, hstate', hnames'⟩ : ∃ m t,
      [Action.setScript abScript, .bang (some 1) [] (.value (some 1))].foldlM step (init true) =
        .ok m ∧ m.mState = 2 ∧ m.mStateNames = ["-", "a", "b"] ∧
      List.foldlM setScript m [⟨[], .rejected none⟩, abScript] = .ok t ∧
      t.mState = 1 ∧ t.mStateNames = ["-", "a", "b"] := ⟨_, _, rfl, rfl, rfl, rfl, rfl, rfl⟩
  refine ⟨m, t, Run.of_foldlM hfold, ⟨1, hstate, by rw [hnames]; rfl⟩, by decide, hedits,
    ⟨0, hstate', by rw [hnames']; rfl⟩, ?_⟩
  rintro ⟨i, hi, hname⟩
  obtain rfl : i = 0 := by omega
  rw [hnames'] at hname
  exact absurd hname (by decide)

end Turing

end Rubyk
