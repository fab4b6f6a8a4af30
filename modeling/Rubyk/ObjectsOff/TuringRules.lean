/-
  ObjectsOff/TuringRules.lean --- the tables of a script against its rules.

  A rule is for a state and a token, for a token in every state (source `.`), or for a
  state and every token.  `meaning` says which one applies.  A machine does what its
  rules mean, but for one cell: the first token puts "stay, send nothing" into the rows
  of the states that are already there, in the column that the second token gets later.
  So the tables are right exactly when these states have a rule for the second token, or
  should stay and send nothing (`rules_followed_iff`).
-/
import Mathlib.Data.List.Nodup
import Rubyk.ObjectsOff.TuringTables

set_option autoImplicit false

namespace Rubyk

open Lib

/-! ## What rules mean -/

/-- The rule is for this source and this token. -/
def Rule.isFor (source : String) (token : Option Nat) (r : Rule) : Bool :=
  r.source.name == source && r.token == token

/-- The last rule for this source and this token. -/
def lastRule (rules : List Rule) (source : String) (token : Option Nat) : Option Rule :=
  rules.reverse.find? (Rule.isFor source token)

/-- The rule that applies to the token `t` in the state `s`. -/
def applicable (rules : List Rule) (s : String) (t : Nat) : Option Rule :=
  (lastRule rules s (some t)).or ((lastRule rules "." (some t)).or (lastRule rules s none))

/-- The next state and what is sent, if the rule applies in the state `s`. -/
def outcome (s : String) : Option Rule → String × TuringSend
  | some r => (r.target.name, r.send.getD .nothing)
  | none => (s, .nothing)

/-- The next state and what is sent, for the token `t` in the state `s`. -/
def meaning (rules : List Rule) (s : String) (t : Nat) : String × TuringSend :=
  outcome s (applicable rules s t)

/-- A rule with a state for a target, that is for a token or for a state, and whose token is one
of the 256. -/
def Rule.Plain (r : Rule) : Prop :=
  r.target.isDot = false ∧ (r.source.isDot = true → r.token ≠ none) ∧ ∀ tok ∈ r.token, tok < 256

/-- A rule names the state. -/
def Named (rules : List Rule) (s : String) : Prop :=
  ∃ r ∈ rules, ∃ id ∈ [r.source, r.target], id.isDot = false ∧ id.name = s

/-- The states that are named before the first token. -/
def earlyStates (rules : List Rule) : List String :=
  stateNames (rules.takeWhile fun r => r.token.isNone)

/-- The second token of the rules. -/
def secondToken (rules : List Rule) : Option Nat := (tokensOf rules)[1]?

/-- For the second token, the states that are named before the first one have a rule of their
own, or they should stay and send nothing. -/
def SecondTokenCovered (rules : List Rule) : Prop :=
  ∀ t ∈ secondToken rules, ∀ s ∈ earlyStates rules,
    (∃ r ∈ rules, r.source.name = s ∧ r.token = some t) ∨ meaning rules s t = (s, .nothing)

/-- In the state `s`, a `bang` with the token `t` does what the rules mean. -/
def Turing.Follows (m : Turing) (rules : List Rule) (s : String) (t : Nat) : Prop :=
  ∃ i m', m.mStateByName s = some i ∧
    Turing.bang { m with isOk := true, scriptOk := true, mState := i } (some t) []
      (.value (some t)) = .ok (some (meaning rules s t).2, m') ∧
    ∃ j : Nat, m'.mState = j ∧ m'.mStateNames[j]? = some (meaning rules s t).1

/-! ## The rows of states -/

section Names

variable {names : List String} {rules : List Rule} {r : Rule} {s : String} {t : Nat}

/-- The row of a state, or of `.`. -/
def rowOf (names : List String) (s : String) : Nat := if s = "." then 0 else names.idxOf s + 1

theorem stateId_eq_rowOf (names : List String) (id : Identifier) :
    stateId names id = rowOf names id.name := by
  simp [stateId, rowOf, Identifier.isDot]

theorem mem_addName {id : Identifier} :
    s ∈ addName names id ↔ s ∈ names ∨ (id.isDot = false ∧ id.name = s) := by
  unfold addName
  split
  · rename_i h
    refine ⟨.inl, fun hs => ?_⟩
    rcases hs with hs | ⟨hdot, rfl⟩
    · exact hs
    · exact h.resolve_left (by simp [hdot])
  · rename_i h
    simp only [not_or, Bool.not_eq_true] at h
    simp [h.1, eq_comm]

/-- The states of a script are those that its rules name. -/
theorem mem_stateNames_iff : s ∈ stateNames rules ↔ Named rules s := by
  induction rules using List.reverseRecOn with
  | nil => simp [stateNames, Named]
  | append_singleton rules last ih =>
    rw [stateNames_append_singleton, addRuleNames, mem_addName, mem_addName, ih]
    constructor
    · rintro ((⟨r, hr, hid⟩ | hsource) | htarget)
      · exact ⟨r, List.mem_append_left _ hr, hid⟩
      · exact ⟨last, by simp, last.source, by simp, hsource⟩
      · exact ⟨last, by simp, last.target, by simp, htarget⟩
    · rintro ⟨r, hr, id, hid, hname⟩
      rcases List.mem_append.mp hr with hr | hr
      · exact .inl (.inl ⟨r, hr, id, hid, hname⟩)
      · obtain rfl := List.mem_singleton.mp hr
        rcases List.mem_pair.mp hid with rfl | rfl
        · exact .inl (.inr hname)
        · exact .inr hname

theorem Named.ne_dot (h : Named rules s) : s ≠ "." := by
  obtain ⟨r, -, id, -, hdot, rfl⟩ := h
  simpa [Identifier.isDot] using hdot

theorem Named.ne_dash (h : Named rules s) : s ≠ "-" := by
  obtain ⟨r, -, id, -, -, rfl⟩ := h
  exact id.ne_dash

/-- A state has one row. -/
theorem rowOf_inj {s' : String} (hs : s = "." ∨ s ∈ names) (hs' : s' = "." ∨ s' ∈ names) :
    rowOf names s = rowOf names s' ↔ s = s' := by
  constructor
  · intro h
    unfold rowOf at h
    split at h
    · rename_i hdot
      split at h
      · rename_i hdot'
        rw [hdot, hdot']
      · omega
    · rename_i hdot
      split at h
      · omega
      · exact (List.idxOf_inj (hs.resolve_left hdot)).mp (by omega)
  · rintro rfl
    rfl

/-- A token has one column. -/
theorem tokenId_inj {tokens : List Nat} {token token' : Option Nat} (h : KnownToken tokens token)
    (hlt : ∀ tok ∈ token, tok < 256) (hlt' : ∀ tok ∈ token', tok < 256) :
    tokenId tokens token = tokenId tokens token' ↔ token = token' := by
  constructor
  · intro heq
    cases htoken : token with
    | none =>
      cases htoken' : token' with
      | none => rfl
      | some tok' => simp [tokenId, htoken, htoken'] at heq
    | some tok =>
      cases htoken' : token' with
      | none => simp [tokenId, htoken, htoken'] at heq
      | some tok' =>
        simp only [tokenId, htoken, htoken', Nat.add_right_cancel_iff] at heq
        have hmod := (List.idxOf_inj (h tok htoken)).mp heq
        rw [Nat.mod_eq_of_lt (hlt tok htoken), Nat.mod_eq_of_lt (hlt' tok' htoken')] at hmod
        rw [hmod]
  · rintro rfl
    rfl

/-- The entry that writes the cell of a state and a token is the last rule for them. -/
theorem find_writes_eq_lastRule (hplain : ∀ r ∈ rules, r.Plain)
    (hs : s = "." ∨ s ∈ stateNames rules) {token : Option Nat} (hlt : ∀ tok ∈ token, tok < 256) :
    rules.reverse.find? (Rule.writes (stateNames rules) (tokensOf rules)
      (rowOf (stateNames rules) s) (tokenId (tokensOf rules) token)) = lastRule rules s token := by
  refine List.find?_congr fun r hr => ?_
  have hmem := List.mem_reverse.mp hr
  obtain ⟨hsource, -, hrtoken⟩ := known_of_mem hmem
  have hrow : stateId (stateNames rules) r.source = rowOf (stateNames rules) s ↔
      r.source.name = s := by
    rw [stateId_eq_rowOf]
    refine rowOf_inj ?_ hs
    exact hsource.imp_left fun hdot => by simpa [Identifier.isDot] using hdot
  have hcolumn : tokenId (tokensOf rules) r.token = tokenId (tokensOf rules) token ↔
      r.token = token := tokenId_inj hrtoken (hplain r hmem).2.2 hlt
  rw [Bool.eq_iff_iff]
  simp only [Rule.writes, Rule.isFor, Bool.and_eq_true, beq_iff_eq, hrow, hcolumn]

end Names

/-! ## The columns of tokens -/

section Tokens

variable {rules : List Rule} {s : String} {t : Nat}

/-- The column of a token that comes in: that of the defaults, if no rule is for it. -/
def columnOf (tokens : List Nat) (t : Nat) : Nat := if t ∈ tokens then tokens.idxOf t + 1 else 0

theorem tokensOf_nodup (rules : List Rule) : (tokensOf rules).Nodup := by
  induction rules using List.reverseRecOn with
  | nil => exact List.nodup_nil
  | append_singleton rules last ih =>
    rw [tokensOf_append_singleton]
    unfold addToken
    split
    · exact ih
    · split
      · exact ih
      · rename_i hnew
        refine List.nodup_append.mpr ⟨ih, List.nodup_singleton _, ?_⟩
        rintro tok htok _ hlast rfl
        exact hnew (List.mem_singleton.mp hlast ▸ htok)

theorem lt_of_mem_tokensOf (h : t ∈ tokensOf rules) : t < 256 := by
  induction rules using List.reverseRecOn with
  | nil => simp [tokensOf] at h
  | append_singleton rules last ih =>
    rw [tokensOf_append_singleton] at h
    unfold addToken at h
    split at h
    · exact ih h
    · split at h
      · exact ih h
      · rcases List.mem_append.mp h with h | h
        · exact ih h
        · rw [List.mem_singleton.mp h]
          exact Nat.mod_lt _ (by omega)

theorem columnOf_of_mem (h : t ∈ tokensOf rules) :
    columnOf (tokensOf rules) t = tokenId (tokensOf rules) (some t) := by
  rw [columnOf, if_pos h, tokenId, Nat.mod_eq_of_lt (lt_of_mem_tokensOf h)]

/-- The second token has column 2. -/
theorem columnOf_eq_two_iff : columnOf (tokensOf rules) t = 2 ↔ secondToken rules = some t := by
  have hnodup := tokensOf_nodup rules
  constructor
  · intro h
    unfold columnOf at h
    split at h
    · rename_i hmem
      have hone : (tokensOf rules).idxOf t = 1 := by omega
      have hget := List.getElem?_idxOf hmem
      rw [hone] at hget
      exact hget
    · omega
  · intro h
    obtain ⟨hlt, hget⟩ := List.getElem?_eq_some_iff.mp h
    rw [columnOf, if_pos (hget ▸ List.getElem_mem hlt), ← hget, hnodup.idxOf_getElem 1 hlt]

/-- No rule is for a token that has no column. -/
theorem lastRule_of_notMem (h : t ∉ tokensOf rules) (ht : t < 256) (s : String) :
    lastRule rules s (some t) = none := by
  refine List.find?_eq_none.mpr fun r hr hfor => h ?_
  simp only [Rule.isFor, Bool.and_eq_true, beq_iff_eq] at hfor
  have hknown := (known_of_mem (List.mem_reverse.mp hr)).2.2 t hfor.2
  rwa [Nat.mod_eq_of_lt ht] at hknown

theorem prefix_earlyStates (rules : List Rule) : earlyStates rules <+: stateNames rules := by
  have hcut := List.takeWhile_append_dropWhile (p := fun r : Rule => r.token.isNone) (l := rules)
  have hprefix := prefix_stateNames (rules.takeWhile fun r => r.token.isNone)
    (rules.dropWhile fun r => r.token.isNone)
  rwa [hcut] at hprefix

/-- A state has one of the first rows if it is named before the first token. -/
theorem rowOf_le_earlyCount_iff (hs : Named rules s) :
    rowOf (stateNames rules) s ≤ earlyCount rules ↔ s ∈ earlyStates rules := by
  obtain ⟨more, hmore⟩ := prefix_earlyStates rules
  rw [rowOf, if_neg hs.ne_dot, ← hmore]
  change (earlyStates rules ++ more).idxOf s + 1 ≤ (earlyStates rules).length ↔ _
  constructor
  · intro hle
    by_contra hnot
    rw [List.idxOf_append_of_notMem hnot] at hle
    omega
  · intro hmem
    rw [List.idxOf_append_of_mem hmem]
    exact List.idxOf_lt_length_of_mem hmem

end Tokens

/-! ## What the tables say -/

/-- The cell for `s` and `t` is one that no rule writes, but that the first token fills. -/
def Overlooked (rules : List Rule) (s : String) (t : Nat) : Prop :=
  lastRule rules s (some t) = none ∧ s ∈ earlyStates rules ∧ secondToken rules = some t

instance (rules : List Rule) (s : String) (t : Nat) : Decidable (Overlooked rules s t) :=
  inferInstanceAs (Decidable (_ ∧ _ ∧ _))

/-- The rule that a machine applies to the token `t` in the state `s`. -/
def appliedRule (rules : List Rule) (s : String) (t : Nat) : Option Rule :=
  if Overlooked rules s t then none else applicable rules s t

/-- The cell of the state and the token, or else that of the token, or else that of the state. -/
def pick {β : Type} [DecidableEq β] (dflt own ofToken ofState : β) : β :=
  if own = dflt then (if ofToken = dflt then ofState else ofToken) else own

section Cells

variable {β : Type} {fill : Fill β} {rules : List Rule} {x : Rule → β} {s : String} {t : Nat}

/-- The cell of a state, or `.`, and a token, or none. -/
theorem cellsOf_rowOf (hplain : ∀ r ∈ rules, r.Plain) (hs : s = "." ∨ s ∈ stateNames rules)
    {token : Option Nat} (hlt : ∀ tok ∈ token, tok < 256) :
    cellsOf fill rules x (rowOf (stateNames rules) s) (tokenId (tokensOf rules) token) =
      (lastRule rules s token).elim (blankCell fill (earlyCount rules)
        (rowOf (stateNames rules) s) (tokenId (tokensOf rules) token)) x := by
  rw [cellsOf, find_writes_eq_lastRule hplain hs hlt]
  cases lastRule rules s token with
  | none => rfl
  | some r => rfl

/-- An entry is one of the entries. -/
theorem mem_of_lastRule {token : Option Nat} {r : Rule} (h : lastRule rules s token = some r) :
    r ∈ rules := List.mem_reverse.mp (List.mem_of_find?_eq_some h)

/-- The default of a state. -/
theorem cellsOf_state (hplain : ∀ r ∈ rules, r.Plain) (hs : Named rules s) :
    cellsOf fill rules x (rowOf (stateNames rules) s) 0 =
      (lastRule rules s none).elim (fill.stay (rowOf (stateNames rules) s)) x := by
  have hcell : cellsOf fill rules x _ (tokenId (tokensOf rules) none) = _ :=
    cellsOf_rowOf hplain (.inr (mem_stateNames_iff.mpr hs)) nofun
  have hrow : rowOf (stateNames rules) s ≠ 0 := by simp [rowOf, hs.ne_dot]
  simpa [tokenId, blankCell, hrow] using hcell

/-- The default of a token. -/
theorem cellsOf_token (hplain : ∀ r ∈ rules, r.Plain) (ht : t ∈ tokensOf rules) :
    cellsOf fill rules x 0 (columnOf (tokensOf rules) t) =
      (lastRule rules "." (some t)).elim fill.dflt x := by
  have hlt := lt_of_mem_tokensOf ht
  have hcell : cellsOf fill rules x (rowOf (stateNames rules) ".")
      (tokenId (tokensOf rules) (some t)) = _ :=
    cellsOf_rowOf hplain (.inl rfl) (by simpa using hlt)
  rw [columnOf_of_mem ht]
  simpa [rowOf, blankCell] using hcell

/-- The cell of a state and a token. -/
theorem cellsOf_own (hplain : ∀ r ∈ rules, r.Plain) (hs : Named rules s)
    (ht : t ∈ tokensOf rules) :
    cellsOf fill rules x (rowOf (stateNames rules) s) (columnOf (tokensOf rules) t) =
      (lastRule rules s (some t)).elim
        (if s ∈ earlyStates rules ∧ secondToken rules = some t
          then fill.stay (rowOf (stateNames rules) s) else fill.dflt) x := by
  have hlt := lt_of_mem_tokensOf ht
  have hcell : cellsOf fill rules x _ (tokenId (tokensOf rules) (some t)) = _ :=
    cellsOf_rowOf hplain (.inr (mem_stateNames_iff.mpr hs)) (by simpa using hlt)
  have hrow : rowOf (stateNames rules) s ≠ 0 := by simp [rowOf, hs.ne_dot]
  have hcolumn : columnOf (tokensOf rules) t ≠ 0 := by simp [columnOf, ht]
  rw [← columnOf_of_mem ht] at hcell
  rw [hcell]
  congr 1
  simp [blankCell, hrow, hcolumn, columnOf_eq_two_iff, rowOf_le_earlyCount_iff hs, and_comm]

/-- The three cells that a token in a state may use together say what the applied rule says. -/
theorem pick_cellsOf [DecidableEq β] (hplain : ∀ r ∈ rules, r.Plain) (hs : Named rules s)
    (ht : t < 256) (hx : ∀ r ∈ rules, x r ≠ fill.dflt) (hstay : ∀ i, fill.stay i ≠ fill.dflt) :
    pick fill.dflt
        (cellsOf fill rules x (rowOf (stateNames rules) s) (columnOf (tokensOf rules) t))
        (cellsOf fill rules x 0 (columnOf (tokensOf rules) t))
        (cellsOf fill rules x (rowOf (stateNames rules) s) 0) =
      (appliedRule rules s t).elim (fill.stay (rowOf (stateNames rules) s)) x := by
  by_cases hmem : t ∈ tokensOf rules
  · rw [cellsOf_own hplain hs hmem, cellsOf_token hplain hmem, cellsOf_state hplain hs]
    unfold pick
    by_cases hover : Overlooked rules s t
    · rw [appliedRule, if_pos hover, hover.1, Option.elim_none, if_pos hover.2,
        if_neg (hstay _)]
      rfl
    · rw [appliedRule, if_neg hover, applicable]
      cases hown : lastRule rules s (some t) with
      | some r => simp [hx r (mem_of_lastRule hown)]
      | none =>
        have hblank : ¬ (s ∈ earlyStates rules ∧ secondToken rules = some t) := fun h =>
          hover ⟨hown, h⟩
        rw [Option.elim_none, if_neg hblank, if_pos rfl]
        cases hdot : lastRule rules "." (some t) with
        | some r => simp [hx r (mem_of_lastRule hdot)]
        | none => simp
  · -- a token without a column of its own uses the state's default
    have hcolumn : columnOf (tokensOf rules) t = 0 := if_neg hmem
    have hover : ¬ Overlooked rules s t := fun h => hmem (List.mem_of_getElem? h.2.2)
    have hdefault : (lastRule rules s none).elim (fill.stay (rowOf (stateNames rules) s)) x ≠
        fill.dflt := by
      cases hstate : lastRule rules s none with
      | none => exact hstay _
      | some r => exact hx r (mem_of_lastRule hstate)
    rw [hcolumn, cellsOf_state hplain hs, pick, if_neg hdefault, appliedRule, if_neg hover,
      applicable, lastRule_of_notMem hmem ht, lastRule_of_notMem hmem ht]
    rfl

end Cells

/-! ## What a machine does -/

namespace Turing

variable {m : Turing} {rules : List Rule} {s : String} {t : Nat}

/-- `token_Table` has the columns. -/
theorem Compiled.tokenTable_eq (h : m.Compiled rules) (t : Nat) :
    m.tokenTable t = columnOf (tokensOf rules) t := h.tokenTable t

theorem Compiled.column_lt_width (h : m.Compiled rules) (t i : Nat) :
    m.tokenTable t < rowWidth (tokensOf rules) i := by
  refine Nat.lt_of_lt_of_le ?_ (Nat.le_add_right _ _)
  rw [h.tokenTable_eq, columnOf]
  split
  · rename_i hmem
    exact Nat.succ_lt_succ (List.idxOf_lt_length_of_mem hmem)
  · exact Nat.succ_pos _

theorem Compiled.gotoAt_eq (h : m.Compiled rules) {i j : Nat}
    (hi : i < (stateNames rules).length + 1) (hj : j < rowWidth (tokensOf rules) i) :
    m.gotoAt i j = .ok (cellsOf gotoFill rules (targetId rules) i j) := by
  simp [gotoAt, h.gotoTable.cell_eq hi hj]

theorem Compiled.sendAt_eq (h : m.Compiled rules) {i j : Nat}
    (hi : i < (stateNames rules).length + 1) (hj : j < rowWidth (tokensOf rules) i) :
    m.sendAt i j = .ok (cellsOf sendFill rules sendOf i j) := by
  simp [sendAt, h.sendTable.cell_eq hi hj]

/-- The choice of the next state, inside of the tables. -/
theorem Compiled.chooseState_eq (h : m.Compiled rules) {i j : Nat} (hstate : m.mState = i)
    (htoken : m.token = j) (hi : i < (stateNames rules).length + 1)
    (hj : ∀ i, j < rowWidth (tokensOf rules) i) :
    m.chooseState = .ok (pick (-1) (cellsOf gotoFill rules (targetId rules) i j)
      (cellsOf gotoFill rules (targetId rules) 0 j)
      (cellsOf gotoFill rules (targetId rules) i 0)) := by
  have hzero : m.gotoAt 0 j = .ok (cellsOf gotoFill rules (targetId rules) 0 j) :=
    h.gotoAt_eq (i := 0) (Nat.succ_pos _) (hj 0)
  have hdefault : m.gotoAt i 0 = .ok (cellsOf gotoFill rules (targetId rules) i 0) :=
    h.gotoAt_eq (j := 0) hi (Nat.lt_of_le_of_lt (Nat.zero_le _) (hj i))
  rw [chooseState, hstate, htoken, h.gotoAt_eq hi (hj i), ok_bind, pick]
  split
  · rw [hzero, ok_bind]
    split
    · exact hdefault
    · rfl
  · rfl

/-- The choice of what is sent, inside of the tables. -/
theorem Compiled.chooseSend_eq (h : m.Compiled rules) {i j : Nat} (hstate : m.mState = i)
    (htoken : m.token = j) (hi : i < (stateNames rules).length + 1)
    (hj : ∀ i, j < rowWidth (tokensOf rules) i) :
    m.chooseSend = .ok (pick none (cellsOf sendFill rules sendOf i j)
      (cellsOf sendFill rules sendOf 0 j) (cellsOf sendFill rules sendOf i 0)) := by
  have hzero : m.sendAt 0 j = .ok (cellsOf sendFill rules sendOf 0 j) :=
    h.sendAt_eq (i := 0) (Nat.succ_pos _) (hj 0)
  have hdefault : m.sendAt i 0 = .ok (cellsOf sendFill rules sendOf i 0) :=
    h.sendAt_eq (j := 0) hi (Nat.lt_of_le_of_lt (Nat.zero_le _) (hj i))
  rw [chooseSend, hstate, htoken, h.sendAt_eq hi (hj i), ok_bind, pick]
  cases hown : cellsOf sendFill rules sendOf i j with
  | some send => rfl
  | none =>
    rw [if_pos rfl]
    simp only [hzero, ok_bind]
    cases hdot : cellsOf sendFill rules sendOf 0 j with
    | some send => rfl
    | none => exact hdefault

/-- A `bang` with the token of one of the 256. -/
theorem Compiled.bang_eq (h : m.Compiled rules) (hplain : ∀ r ∈ rules, r.Plain)
    (hs : Named rules s) (ht : t < 256) :
    ∃ m', bang { m with isOk := true, scriptOk := true, mState := rowOf (stateNames rules) s }
        (some t) [] (.value (some t)) =
          .ok (some (outcome s (appliedRule rules s t)).2, m') ∧
      m'.mState = rowOf (stateNames rules) (outcome s (appliedRule rules s t)).1 ∧
      m'.mStateNames = m.mStateNames := by
  have hrow : rowOf (stateNames rules) s < (stateNames rules).length + 1 := by
    rw [rowOf, if_neg hs.ne_dot]
    exact Nat.succ_lt_succ (List.idxOf_lt_length_of_mem (mem_stateNames_iff.mpr hs))
  let ready : Turing :=
    { m with isOk := true, scriptOk := true, mState := rowOf (stateNames rules) s
             token := m.tokenTable t }
  have hready : ready.Compiled rules := { h with }
  have hread : ∀ m' : Turing, m'.readToken (some t) = .ok { m' with token := m'.tokenTable t } := by
    intro m'
    have hmod : (t : Int).tmod 256 = t := Int.tmod_eq_of_lt (by omega) (by omega)
    have hpos : ¬ ((t : Int) < 0) := by omega
    simp [readToken, hmod, hpos]
  have hsend : ready.chooseSend = .ok (some (outcome s (appliedRule rules s t)).2) := by
    have hsends : ∀ r ∈ rules, sendOf r ≠ sendFill.dflt := fun _ _ => by simp [sendOf, sendFill]
    have hstays : ∀ i, sendFill.stay i ≠ sendFill.dflt := fun _ => by simp [sendFill]
    have hpick : pick none _ _ _ = (appliedRule rules s t).elim (some TuringSend.nothing) sendOf :=
      pick_cellsOf hplain hs ht hsends hstays
    rw [hready.chooseSend_eq rfl rfl hrow (hready.column_lt_width t), h.tokenTable_eq, hpick]
    cases appliedRule rules s t with
    | none => rfl
    | some r => rfl
  have hstate : ready.chooseState =
      .ok (rowOf (stateNames rules) (outcome s (appliedRule rules s t)).1 : Nat) := by
    have htargets : ∀ r ∈ rules, targetId rules r ≠ gotoFill.dflt := by
      intro r _ heq
      have hpos : (0 : Int) ≤ targetId rules r := Int.natCast_nonneg _
      rw [heq] at hpos
      exact absurd hpos (by decide)
    have hstays : ∀ i, gotoFill.stay i ≠ gotoFill.dflt := by
      intro i
      change (i : Int) ≠ -1
      omega
    have hpick : pick (-1) _ _ _ = (appliedRule rules s t).elim
        (gotoFill.stay (rowOf (stateNames rules) s)) (targetId rules) :=
      pick_cellsOf hplain hs ht htargets hstays
    rw [hready.chooseState_eq rfl rfl hrow (hready.column_lt_width t), h.tokenTable_eq, hpick]
    cases appliedRule rules s t with
    | none => rfl
    | some r =>
      rw [Option.elim_some, targetId, stateId_eq_rowOf]
      rfl
  refine ⟨{ ready with mState := rowOf (stateNames rules) (outcome s (appliedRule rules s t)).1 },
    ?_, rfl, rfl⟩
  simp only [bang, hread, ok_bind]
  change ready.react = _
  simp only [react, hsend, hstate, ok_bind]

/-- The state that a rule leads to is one of the states. -/
theorem named_outcome (hplain : ∀ r ∈ rules, r.Plain) (hs : Named rules s) {rule : Option Rule}
    (hrule : ∀ r ∈ rule, r ∈ rules) : Named rules (outcome s rule).1 := by
  cases rule with
  | none => exact hs
  | some r =>
    have hr := hrule r rfl
    exact ⟨r, hr, r.target, by simp, (hplain r hr).1, rfl⟩

theorem mem_of_appliedRule {r : Rule} (h : r ∈ appliedRule rules s t) : r ∈ rules := by
  unfold appliedRule at h
  split at h
  · simp at h
  · simp only [applicable, Option.mem_def, Option.or_eq_some_iff] at h
    rcases h with h | ⟨-, h | ⟨-, h⟩⟩
    · exact mem_of_lastRule h
    · exact mem_of_lastRule h
    · exact mem_of_lastRule h

/-- A machine does what the rules mean exactly where the applied rule says the same. -/
theorem Compiled.follows_iff (h : m.Compiled rules) (hplain : ∀ r ∈ rules, r.Plain)
    (hs : Named rules s) (ht : t < 256) :
    m.Follows rules s t ↔ outcome s (appliedRule rules s t) = meaning rules s t := by
  have hmem := mem_stateNames_iff.mpr hs
  have hid : m.mStateByName s = some ((rowOf (stateNames rules) s : Nat) : Int) := by
    rw [h.byName, if_neg hs.ne_dash, if_pos hmem, rowOf, if_neg hs.ne_dot]
  obtain ⟨after, hbang, hstate, hnames⟩ := h.bang_eq hplain hs ht
  have hnext : Named rules (outcome s (appliedRule rules s t)).1 :=
    named_outcome hplain hs fun r hr => mem_of_appliedRule hr
  have hname : m.mStateNames[rowOf (stateNames rules) (outcome s (appliedRule rules s t)).1]? =
      some (outcome s (appliedRule rules s t)).1 := by
    rw [h.stateNames, rowOf, if_neg hnext.ne_dot, List.getElem?_cons_succ]
    exact List.getElem?_idxOf (mem_stateNames_iff.mpr hnext)
  constructor
  · rintro ⟨i, m', hi, hrun, j, hj, hjname⟩
    obtain rfl : (rowOf (stateNames rules) s : Int) = i := Option.some.inj (hid ▸ hi)
    have hsame := Except.ok.inj (hbang.symm.trans hrun)
    obtain rfl : after = m' := congrArg Prod.snd hsame
    have hsend := Option.some.inj (congrArg Prod.fst hsame)
    obtain rfl : rowOf (stateNames rules) (outcome s (appliedRule rules s t)).1 = j :=
      Int.natCast_inj.mp (hstate.symm.trans hj)
    exact Prod.ext (Option.some.inj (hname.symm.trans (hnames ▸ hjname))) hsend
  · intro heq
    refine ⟨_, after, hid, ?_, _, hstate, ?_⟩
    · rw [← heq]
      exact hbang
    · rw [hnames, hname, heq]

end Turing

/-- The tables that are compiled from rules do what the rules mean exactly when the second token
is covered. -/
theorem Turing.rules_followed_iff (m : Turing) {rules : List Rule}
    (hplain : ∀ r ∈ rules, r.Plain) :
    ∃ m', m.clearTables.compile rules = .ok m' ∧
      ((∀ s t, Named rules s → t < 256 → m'.Follows rules s t) ↔ SecondTokenCovered rules) := by
  obtain ⟨m', hcompile, hcompiled, -⟩ := compile_shape m rules
  refine ⟨m', hcompile, ?_⟩
  have hlastRule : ∀ s t, lastRule rules s (some t) = none ↔
      ¬ ∃ r ∈ rules, r.source.name = s ∧ r.token = some t := by
    intro s t
    simp [lastRule, Rule.isFor, List.find?_eq_none]
  constructor
  · intro hall t ht s hs
    have hnamed := mem_stateNames_iff.mp ((prefix_earlyStates rules).subset hs)
    have hlt : t < 256 := lt_of_mem_tokensOf (List.mem_of_getElem? ht)
    have hfollows := (hcompiled.follows_iff hplain hnamed hlt).mp (hall s t hnamed hlt)
    by_cases hover : Overlooked rules s t
    · rw [appliedRule, if_pos hover] at hfollows
      exact .inr hfollows.symm
    · have hown : lastRule rules s (some t) ≠ none := fun hnone => hover ⟨hnone, hs, ht⟩
      exact .inl (not_not.mp fun hno => hown ((hlastRule s t).mpr hno))
  · intro hcovered s t hs ht
    rw [hcompiled.follows_iff hplain hs ht]
    by_cases hover : Overlooked rules s t
    · have hno := (hlastRule s t).mp hover.1
      rw [appliedRule, if_pos hover]
      exact ((hcovered t hover.2.2 s hover.2.1).resolve_left hno).symm
    · rw [appliedRule, if_neg hover, meaning]

/-- The script of `test_default_token_action`: `. 4:33 -> a`, `a 10:15 -> b`, `a 4:53 -> b` and
`b -> b`. -/
def defaultTokenRules : List Rule :=
  [⟨⟨".", isIdentifier_dot⟩, some 4, some (.value 33), ⟨"a", isIdentifier_a⟩⟩,
   ⟨⟨"a", isIdentifier_a⟩, some 10, some (.value 15), ⟨"b", isIdentifier_b⟩⟩,
   ⟨⟨"a", isIdentifier_a⟩, some 4, some (.value 53), ⟨"b", isIdentifier_b⟩⟩,
   ⟨⟨"b", isIdentifier_b⟩, none, none, ⟨"b", isIdentifier_b⟩⟩]

theorem Turing.rules_followed_iff_defaultToken :
    ∃ m', (Turing.init true).clearTables.compile defaultTokenRules = .ok m' ∧
      ∀ s t, Named defaultTokenRules s → t < 256 → m'.Follows defaultTokenRules s t := by
  have hplain : ∀ r ∈ defaultTokenRules, r.Plain := by
    simp [defaultTokenRules, Rule.Plain, Identifier.isDot]
  have hcovered : SecondTokenCovered defaultTokenRules := by
    intro t _ s hs
    simp [earlyStates, defaultTokenRules, stateNames] at hs
  obtain ⟨m', hcompile, hiff⟩ := Turing.rules_followed_iff (Turing.init true) hplain
  exact ⟨m', hcompile, hiff.mpr hcovered⟩

/-- `a -> b`, `b -> a`, `a 10:15 -> b` and `a 4:53 -> b`. -/
def uncoveredRules : List Rule :=
  [⟨⟨"a", isIdentifier_a⟩, none, none, ⟨"b", isIdentifier_b⟩⟩,
   ⟨⟨"b", isIdentifier_b⟩, none, none, ⟨"a", isIdentifier_a⟩⟩,
   ⟨⟨"a", isIdentifier_a⟩, some 10, some (.value 15), ⟨"b", isIdentifier_b⟩⟩,
   ⟨⟨"a", isIdentifier_a⟩, some 4, some (.value 53), ⟨"b", isIdentifier_b⟩⟩]

/-- In the state `b` no rule is for the token 4, so it should lead to `a`; but the machine
stays. -/
theorem Turing.second_token_overlooked :
    (∀ r ∈ uncoveredRules, r.Plain) ∧ Named uncoveredRules "b" ∧
      meaning uncoveredRules "b" 4 = ("a", .nothing) ∧
      ∃ m m', (Turing.init true).clearTables.compile uncoveredRules = .ok m ∧
        m.mStateByName "b" = some 2 ∧
        Turing.bang { m with isOk := true, scriptOk := true, mState := 2 } (some 4) []
          (.value (some 4)) = .ok (some .nothing, m') ∧
        m'.mState = 2 ∧ m'.mStateNames[2]? = some "b" ∧
        ¬ m.Follows uncoveredRules "b" 4 := by
  have hplain : ∀ r ∈ uncoveredRules, r.Plain := by
    simp [uncoveredRules, Rule.Plain, Identifier.isDot]
  have hnames : stateNames uncoveredRules = ["a", "b"] := by decide
  have hnamed : Named uncoveredRules "b" := mem_stateNames_iff.mp (by simp [hnames])
  have hmeaning : meaning uncoveredRules "b" 4 = ("a", .nothing) := by decide
  have happlied : appliedRule uncoveredRules "b" 4 = none := by decide
  have hrow : rowOf (stateNames uncoveredRules) "b" = 2 := by rw [hnames]; decide
  obtain ⟨m, hcompile, hcompiled, -⟩ := Turing.compile_shape (Turing.init true) uncoveredRules
  obtain ⟨m', hbang, hstate, hkept⟩ := hcompiled.bang_eq (t := 4) hplain hnamed (by decide)
  rw [happlied] at hbang hstate
  simp only [outcome, hrow] at hbang hstate
  refine ⟨hplain, hnamed, hmeaning, m, m', hcompile, ?_, hbang, hstate, ?_, ?_⟩
  · rw [hcompiled.byName, hnames]
    decide
  · rw [hkept, hcompiled.stateNames, hnames]
    rfl
  · rw [hcompiled.follows_iff hplain hnamed (by decide), happlied, hmeaning]
    decide

end Rubyk
