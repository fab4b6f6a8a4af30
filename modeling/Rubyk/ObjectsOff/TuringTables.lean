/-
  ObjectsOff/TuringTables.lean --- what the actions of the parser make of the tables.

  States and tokens get their numbers in the order in which they first appear.  The
  tables have a row for each state and a column for each token, but `get_state_id`
  makes a row one cell too wide, so the cell that `set_token` adds to it belongs to the
  next token.  `Shape` describes tables part way through an entry, and `compile_shape`
  says what is in every cell after all the entries of a script.
-/
import Mathlib.Data.List.Find
import Mathlib.Data.List.TakeWhile
import Rubyk.ObjectsOff.Turing

set_option autoImplicit false

namespace Rubyk

open Lib

/-! ## The numbers of states and tokens -/

/-- The states with one more. -/
def addName (names : List String) (id : Identifier) : List String :=
  if id.isDot = true ∨ id.name ∈ names then names else names ++ [id.name]

/-- The states with those of an entry. -/
def addRuleNames (names : List String) (r : Rule) : List String :=
  addName (addName names r.source) r.target

/-- The tokens with that of an entry. -/
def addToken (tokens : List Nat) (token : Option Nat) : List Nat :=
  match token with
  | none => tokens
  | some tok => if tok % 256 ∈ tokens then tokens else tokens ++ [tok % 256]

/-- The states of the entries, in the order in which they first appear. -/
def stateNames (rules : List Rule) : List String := rules.foldl addRuleNames []

/-- The tokens of the entries, in the order in which they first appear. -/
def tokensOf (rules : List Rule) : List Nat := (rules.map Rule.token).foldl addToken []

/-- The row of a state. -/
def stateId (names : List String) (id : Identifier) : Nat :=
  if id.isDot then 0 else names.idxOf id.name + 1

/-- The column of a token. -/
def tokenId (tokens : List Nat) (token : Option Nat) : Nat :=
  match token with
  | none => 0
  | some tok => tokens.idxOf (tok % 256) + 1

/-- The width of a row. -/
def rowWidth (tokens : List Nat) (i : Nat) : Nat := tokens.length + 1 + if i = 0 then 0 else 1

theorem Identifier.ne_dash (id : Identifier) : id.name ≠ "-" := by
  intro h
  have hvalid := id.valid
  rw [h] at hvalid
  revert hvalid
  decide

theorem Identifier.ne_empty (id : Identifier) : id.name ≠ "" := by
  intro h
  have hvalid := id.valid
  rw [h] at hvalid
  revert hvalid
  decide

section Numbers

variable {names : List String} {tokens : List Nat} {rules : List Rule} {r : Rule}
  {id : Identifier} {token : Option Nat}

theorem prefix_addName (names : List String) (id : Identifier) : names <+: addName names id := by
  unfold addName
  split
  · exact List.prefix_refl _
  · exact List.prefix_append _ _

theorem prefix_addRuleNames (names : List String) (r : Rule) : names <+: addRuleNames names r :=
  (prefix_addName names r.source).trans (prefix_addName _ r.target)

theorem prefix_addToken (tokens : List Nat) (token : Option Nat) :
    tokens <+: addToken tokens token := by
  unfold addToken
  split
  · exact List.prefix_refl _
  · split
    · exact List.prefix_refl _
    · exact List.prefix_append _ _

@[simp] theorem stateNames_append_singleton (rules : List Rule) (r : Rule) :
    stateNames (rules ++ [r]) = addRuleNames (stateNames rules) r := by
  simp [stateNames]

@[simp] theorem tokensOf_append_singleton (rules : List Rule) (r : Rule) :
    tokensOf (rules ++ [r]) = addToken (tokensOf rules) r.token := by
  simp [tokensOf]

/-- A state is known. -/
def Known (names : List String) (id : Identifier) : Prop := id.isDot = true ∨ id.name ∈ names

/-- A token is known. -/
def KnownToken (tokens : List Nat) (token : Option Nat) : Prop :=
  ∀ tok ∈ token, tok % 256 ∈ tokens

theorem Known.mono {names' : List String} (h : Known names id) (hle : names <+: names') :
    Known names' id := h.imp_right fun hmem => hle.subset hmem

theorem KnownToken.mono {tokens' : List Nat} (h : KnownToken tokens token)
    (hle : tokens <+: tokens') : KnownToken tokens' token :=
  fun tok htok => hle.subset (h tok htok)

theorem known_addName (names : List String) (id : Identifier) : Known (addName names id) id := by
  unfold addName
  split
  · assumption
  · exact .inr (by simp)

theorem known_addToken (tokens : List Nat) (token : Option Nat) :
    KnownToken (addToken tokens token) token := by
  rintro tok rfl
  unfold addToken
  simp only
  split
  · assumption
  · simp

/-- A known state keeps its row. -/
theorem stateId_mono {names' : List String} (h : Known names id) (hle : names <+: names') :
    stateId names' id = stateId names id := by
  obtain ⟨more, rfl⟩ := hle
  unfold stateId
  split
  · rfl
  · rename_i hdot
    rw [List.idxOf_append_of_mem (h.resolve_left hdot)]

/-- A known token keeps its column. -/
theorem tokenId_mono {tokens' : List Nat} (h : KnownToken tokens token) (hle : tokens <+: tokens') :
    tokenId tokens' token = tokenId tokens token := by
  obtain ⟨more, rfl⟩ := hle
  cases token with
  | none => rfl
  | some tok => simp only [tokenId, List.idxOf_append_of_mem (h tok rfl)]

theorem stateId_lt (h : Known names id) : stateId names id < names.length + 1 := by
  unfold stateId
  split
  · omega
  · rename_i hdot
    have hlt := List.idxOf_lt_length_of_mem (h.resolve_left hdot)
    omega

theorem tokenId_lt (h : KnownToken tokens token) : tokenId tokens token < tokens.length + 1 := by
  cases token with
  | none => exact Nat.succ_pos _
  | some tok =>
    have hlt := List.idxOf_lt_length_of_mem (h tok rfl)
    simp only [tokenId]
    omega

/-- The states and the token of an entry are known after it, and of all entries before it. -/
theorem known_of_mem (hr : r ∈ rules) :
    Known (stateNames rules) r.source ∧ Known (stateNames rules) r.target ∧
      KnownToken (tokensOf rules) r.token := by
  induction rules using List.reverseRecOn with
  | nil => simp at hr
  | append_singleton rules last ih =>
    rw [stateNames_append_singleton, tokensOf_append_singleton]
    have hnames := prefix_addRuleNames (stateNames rules) last
    rcases List.mem_append.mp hr with hr | hr
    · obtain ⟨hsource, htarget, htoken⟩ := ih hr
      exact ⟨hsource.mono hnames, htarget.mono hnames, htoken.mono (prefix_addToken _ _)⟩
    · obtain rfl := List.mem_singleton.mp hr
      exact ⟨(known_addName _ _).mono (prefix_addName _ _), known_addName _ _,
        known_addToken _ _⟩

end Numbers

/-! ## What the operations do to the cells -/

/-- What new cells hold: "stay" in row `i`, and the default. -/
structure Fill (β : Type) where
  stay : Nat → β
  dflt : β

def gotoFill : Fill Int := ⟨fun i => i, -1⟩

def sendFill : Fill (Option TuringSend) := ⟨fun _ => some .nothing, none⟩

section Cells

variable {β : Type} (fill : Fill β)

/-- The cells after a new token. -/
def columnCells (tokens : List Nat) (v : Nat → Nat → β) (i j : Nat) : β :=
  if j = rowWidth tokens i then (if tokens = [] ∧ i ≠ 0 then fill.stay i else fill.dflt) else v i j

/-- The cells after the token of an entry. -/
def tokenCells (tokens : List Nat) (token : Option Nat) (v : Nat → Nat → β) : Nat → Nat → β :=
  if addToken tokens token = tokens then v else columnCells fill tokens v

/-- The cells after a new state. -/
def rowCells (names : List String) (v : Nat → Nat → β) (i j : Nat) : β :=
  if i = names.length + 1 then (if j = 0 then fill.stay i else fill.dflt) else v i j

/-- The cells after a state of an entry. -/
def stateCells (names : List String) (id : Identifier) (v : Nat → Nat → β) : Nat → Nat → β :=
  if addName names id = names then v else rowCells fill names v

/-- The cells after a cell was written. -/
def setCell (i j : Nat) (x : β) (v : Nat → Nat → β) (k l : Nat) : β :=
  if k = i ∧ l = j then x else v k l

/-- The cells after an entry that writes `x`. -/
def ruleCells (names : List String) (tokens : List Nat) (r : Rule) (x : β) (v : Nat → Nat → β) :
    Nat → Nat → β :=
  setCell (stateId (addRuleNames names r) r.source) (tokenId (addToken tokens r.token) r.token) x
    (stateCells fill (addName names r.source) r.target
      (stateCells fill names r.source (tokenCells fill tokens r.token v)))

/-- The number of states that appear before the first token. -/
def earlyCount (rules : List Rule) : Nat :=
  (stateNames (rules.takeWhile fun r => r.token.isNone)).length

/-- The entry writes the cell. -/
def Rule.writes (names : List String) (tokens : List Nat) (i j : Nat) (r : Rule) : Bool :=
  stateId names r.source == i && tokenId tokens r.token == j

/-- What is in a cell that no entry writes.  The first token puts "stay" into a cell of the
rows that there are which belongs to the second token. -/
def blankCell (early i j : Nat) : β :=
  if i ≠ 0 ∧ (j = 0 ∨ (j = 2 ∧ i ≤ early)) then fill.stay i else fill.dflt

/-- The cells after the entries of a script: `x r` is what an entry writes. -/
def cellsOf (rules : List Rule) (x : Rule → β) (i j : Nat) : β :=
  match rules.reverse.find? (Rule.writes (stateNames rules) (tokensOf rules) i j) with
  | some r => x r
  | none => blankCell fill (earlyCount rules) i j

end Cells

namespace Turing

/-- The fields that compiling leaves alone. -/
structure SameControl (m m' : Turing) : Prop where
  isOk : m'.isOk = m.isOk
  scriptOk : m'.scriptOk = m.scriptOk
  token : m'.token = m.token
  mState : m'.mState = m.mState

theorem SameControl.refl (m : Turing) : SameControl m m := ⟨rfl, rfl, rfl, rfl⟩

theorem SameControl.trans {m m' m'' : Turing} (h : SameControl m m') (h' : SameControl m' m'') :
    SameControl m m'' :=
  ⟨h'.isOk.trans h.isOk, h'.scriptOk.trans h.scriptOk, h'.token.trans h.token,
    h'.mState.trans h.mState⟩

/-- The tables are for these states and tokens, and hold these cells. -/
structure Shape (m : Turing) (names : List String) (tokens : List Nat) (goto : Nat → Nat → Int)
    (send : Nat → Nat → Option TuringSend) : Prop where
  stateNames : m.mStateNames = "-" :: names
  count : m.mStateCount = names.length + 1
  byName : ∀ s, m.mStateByName s =
    if s = "-" then some 0
    else if s ∈ names then some ((names.idxOf s + 1 : Nat) : Int) else none
  tokenCount : m.tokenCount = tokens.length + 1
  tokenTable : ∀ t, m.tokenTable t = if t ∈ tokens then tokens.idxOf t + 1 else 0
  gotoTable : m.mGotoTable.Describes (names.length + 1) (rowWidth tokens) goto
  sendTable : m.mSendTable.Describes (names.length + 1) (rowWidth tokens) send

variable {m : Turing} {names : List String} {tokens : List Nat} {goto : Nat → Nat → Int}
  {send : Nat → Nat → Option TuringSend}

theorem clearTables_shape (m : Turing) :
    m.clearTables.Shape [] [] (fun _ _ => -1) fun _ _ => none where
  stateNames := rfl
  count := rfl
  byName := fun s => by
    by_cases hs : s = "-"
    · simp [clearTables, hs]
    · simp [clearTables, hs]
  tokenCount := rfl
  tokenTable := fun t => rfl
  gotoTable := (Rows.describes_singleton [-1] (-1)).congr
    (fun i hi => by simp [rowWidth, Nat.lt_one_iff.mp hi]) fun i j hi hj => by
      have hj' : j = 0 := by simpa [rowWidth, Nat.lt_one_iff.mp hi] using hj
      simp [hj']
  sendTable := (Rows.describes_singleton [none] none).congr
    (fun i hi => by simp [rowWidth, Nat.lt_one_iff.mp hi]) fun i j hi hj => by
      have hj' : j = 0 := by simpa [rowWidth, Nat.lt_one_iff.mp hi] using hj
      simp [hj']

/-- One more column. -/
theorem describes_addColumn {β : Type} {table : Rows β} {n : Nat} {v : Nat → Nat → β}
    (fill : Fill β) (tok : Nat) (h : table.Describes n (rowWidth tokens) v)
    (f : Nat → β) (hf : ∀ i, f i = if tokens = [] ∧ i ≠ 0 then fill.stay i else fill.dflt) :
    (table.addColumn f).Describes n (rowWidth (tokens ++ [tok])) (columnCells fill tokens v) := by
  refine (h.addColumn f).congr (fun i _ => ?_) fun i j _ _ => ?_
  · simp only [rowWidth, List.length_append, List.length_singleton]
    omega
  · simp only [columnCells, hf]

/-- One more row. -/
theorem describes_addRow {β : Type} {table : Rows β} {v : Nat → Nat → β} (fill : Fill β)
    (h : table.Describes (names.length + 1) (rowWidth tokens) v) (x : β)
    (hx : x = fill.stay (names.length + 1)) :
    (table.addRow ((List.replicate (tokens.length + 1 + 1) fill.dflt).set 0 x)).Describes
      (names.length + 1 + 1) (rowWidth tokens) (rowCells fill names v) := by
  refine (h.addRow _ fill.dflt).congr (fun i _ => ?_) fun i j _ hj => ?_
  · by_cases hi : i = names.length + 1
    · simp [hi, rowWidth]
    · simp [hi]
  · by_cases hi : i = names.length + 1
    · subst hi
      have hlt : j < tokens.length + 1 + 1 := by simpa [rowWidth] using hj
      cases j with
      | zero => simp [rowCells, hx]
      | succ j =>
        have hget : (List.replicate (tokens.length + 1 + 1) fill.dflt)[j + 1]? =
            some fill.dflt := by
          rw [List.getElem?_replicate, if_pos hlt]
        simp [rowCells, hget]
    · simp [rowCells, hi]

/-- `set_token` for a token of an entry. -/
theorem setToken_shape (h : m.Shape names tokens goto send) (tok : Nat) :
    (m.setToken tok).1 = tokenId (addToken tokens (some tok)) (some tok) ∧
      (m.setToken tok).2.Shape names (addToken tokens (some tok))
        (tokenCells gotoFill tokens (some tok) goto) (tokenCells sendFill tokens (some tok) send) ∧
      SameControl m (m.setToken tok).2 := by
  by_cases hmem : tok % 256 ∈ tokens
  · have hadd : addToken tokens (some tok) = tokens := by simp [addToken, hmem]
    have hknown : m.tokenTable (tok % 256) ≠ 0 := by simp [h.tokenTable, hmem]
    simp only [setToken, if_neg hknown, hadd, tokenCells, if_true]
    refine ⟨by simp [h.tokenTable, hmem, tokenId], h, SameControl.refl m⟩
  · have hadd : addToken tokens (some tok) = tokens ++ [tok % 256] := by simp [addToken, hmem]
    have hne : ¬ addToken tokens (some tok) = tokens := by simp [hadd]
    have hnew : m.tokenTable (tok % 256) = 0 := by simp [h.tokenTable, hmem]
    simp only [setToken, if_pos hnew, tokenCells, if_neg hne]
    have hfirst : m.tokenCount = 1 ↔ tokens = [] := by simp [h.tokenCount]
    rw [hadd]
    refine ⟨?_, ⟨h.stateNames, h.count, h.byName, ?_, fun t => ?_, ?_, ?_⟩, ⟨rfl, rfl, rfl, rfl⟩⟩
    · simp [tokenId, h.tokenCount, List.idxOf_append_of_notMem hmem]
    · simp [h.tokenCount]
    · by_cases ht : t = tok % 256
      · subst ht
        simp [h.tokenCount, List.idxOf_append_of_notMem hmem]
      · change Function.update m.tokenTable (tok % 256) m.tokenCount t = _
        rw [Function.update_of_ne ht, h.tokenTable]
        by_cases hin : t ∈ tokens
        · simp [hin, List.idxOf_append_of_mem hin]
        · simp [hin, ht]
    · exact describes_addColumn gotoFill _ h.gotoTable _ fun i => by simp [hfirst, gotoFill]
    · exact describes_addColumn sendFill _ h.sendTable _ fun i => by simp [hfirst, sendFill]

/-- The token of an entry. -/
theorem tokenOf_shape (h : m.Shape names tokens goto send) (token : Option Nat) :
    (m.tokenOf token).1 = tokenId (addToken tokens token) token ∧
      (m.tokenOf token).2.Shape names (addToken tokens token)
        (tokenCells gotoFill tokens token goto) (tokenCells sendFill tokens token send) ∧
      SameControl m (m.tokenOf token).2 := by
  cases token with
  | none =>
    refine ⟨rfl, ?_, SameControl.refl m⟩
    simp only [tokenCells, addToken, if_true]
    exact h
  | some tok => exact setToken_shape h tok

/-- `get_state_id` for a state of an entry. -/
theorem stateOf_shape (h : m.Shape names tokens goto send) (id : Identifier) :
    (m.stateOf id).1 = stateId (addName names id) id ∧
      (m.stateOf id).2.Shape (addName names id) tokens (stateCells gotoFill names id goto)
        (stateCells sendFill names id send) ∧
      SameControl m (m.stateOf id).2 := by
  by_cases hdot : id.isDot = true
  · have hadd : addName names id = names := by simp [addName, hdot]
    simp only [stateOf, if_pos hdot, hadd, stateCells, if_true]
    exact ⟨by simp [stateId, hdot], h, SameControl.refl m⟩
  by_cases hmem : id.name ∈ names
  · have hadd : addName names id = names := by simp [addName, hmem]
    have hid : m.mStateByName id.name = some ((names.idxOf id.name + 1 : Nat) : Int) := by
      rw [h.byName, if_neg id.ne_dash, if_pos hmem]
    simp only [stateOf, if_neg hdot, getStateId, hid, hadd, stateCells, if_true]
    exact ⟨by simp [stateId, hdot], h, SameControl.refl m⟩
  · have hadd : addName names id = names ++ [id.name] := by simp [addName, hmem, hdot]
    have hne : ¬ addName names id = names := by simp [hadd]
    have hid : m.mStateByName id.name = none := by
      rw [h.byName, if_neg id.ne_dash, if_neg hmem]
    simp only [stateOf, if_neg hdot, getStateId, hid, stateCells, if_neg hne]
    rw [hadd]
    refine ⟨?_, ⟨?_, ?_, fun s => ?_, h.tokenCount, h.tokenTable, ?_, ?_⟩, ⟨rfl, rfl, rfl, rfl⟩⟩
    · simp [stateId, hdot, h.count, List.idxOf_append_of_notMem hmem]
    · simp [h.stateNames]
    · simp [h.count]
    · by_cases hs : s = id.name
      · subst hs
        simp [id.ne_dash, h.count, List.idxOf_append_of_notMem hmem]
      · change Function.update m.mStateByName id.name (some ↑m.mStateCount) s = _
        rw [Function.update_of_ne hs, h.byName]
        by_cases hin : s ∈ names
        · simp [hin, List.idxOf_append_of_mem hin]
        · simp [hin, hs]
    · rw [h.tokenCount, List.length_append]
      exact describes_addRow gotoFill h.gotoTable _ (by simp [h.count, gotoFill])
    · rw [h.tokenCount, List.length_append]
      exact describes_addRow sendFill h.sendTable _ rfl

/-- `add_entry`. -/
theorem addEntry_shape (h : m.Shape names tokens goto send) {i j : Nat}
    (hi : i < names.length + 1) (hj : j < tokens.length + 1) (target : Int) (x : TuringSend) :
    ∃ m', m.addEntry i j target x = .ok m' ∧
      m'.Shape names tokens (setCell i j target goto) (setCell i j (some x) send) ∧
      SameControl m m' := by
  have hj' : j < rowWidth tokens i := Nat.lt_of_lt_of_le hj (Nat.le_add_right _ _)
  obtain ⟨gotoTable, hgoto, hgotoShape⟩ := h.gotoTable.write hi hj' target
  obtain ⟨sendTable, hsend, hsendShape⟩ := h.sendTable.write hi hj' (some x)
  refine ⟨{ m with mGotoTable := gotoTable, mSendTable := sendTable }, ?_, ?_, ⟨rfl, rfl, rfl, rfl⟩⟩
  · simp [addEntry, hgoto, hsend]
  · exact ⟨h.stateNames, h.count, h.byName, h.tokenCount, h.tokenTable, hgotoShape, hsendShape⟩

/-- The actions of an entry. -/
theorem compileRule_shape (h : m.Shape names tokens goto send) (r : Rule) :
    ∃ m', m.compileRule r = .ok m' ∧
      m'.Shape (addRuleNames names r) (addToken tokens r.token)
        (ruleCells gotoFill names tokens r (stateId (addRuleNames names r) r.target : Nat) goto)
        (ruleCells sendFill names tokens r (some (r.send.getD .nothing)) send) ∧
      SameControl m m' := by
  obtain ⟨htoken, h₁, hsame₁⟩ := tokenOf_shape h r.token
  obtain ⟨hsource, h₂, hsame₂⟩ := stateOf_shape h₁ r.source
  obtain ⟨htarget, h₃, hsame₃⟩ := stateOf_shape h₂ r.target
  have hsourceKnown : Known (addRuleNames names r) r.source :=
    (known_addName names r.source).mono (prefix_addName _ _)
  have hrow := stateId_lt hsourceKnown
  have hcolumn := tokenId_lt (known_addToken tokens r.token)
  have hsourceId : stateId (addName names r.source) r.source =
      stateId (addRuleNames names r) r.source :=
    (stateId_mono (known_addName names r.source) (prefix_addName _ _)).symm
  obtain ⟨m', hentry, hshape, hsame⟩ := addEntry_shape h₃ hrow hcolumn
    (stateId (addRuleNames names r) r.target : Nat) (r.send.getD .nothing)
  refine ⟨m', ?_, hshape, ((hsame₁.trans hsame₂).trans hsame₃).trans hsame⟩
  rw [← hentry]
  simp only [compileRule, htoken, hsource, htarget, hsourceId]
  rfl

end Turing

/-! ## All entries of a script -/

section Early

variable {rules : List Rule} {r : Rule}

theorem tokensOf_eq_nil_iff : tokensOf rules = [] ↔ ∀ r ∈ rules, r.token = none := by
  constructor
  · intro h r hr
    have hknown := (known_of_mem hr).2.2
    rw [h] at hknown
    cases htoken : r.token with
    | none => rfl
    | some tok => exact absurd (hknown tok htoken) List.not_mem_nil
  · intro h
    induction rules using List.reverseRecOn with
    | nil => rfl
    | append_singleton rules last ih =>
      have hlast : last.token = none := h last (by simp)
      rw [tokensOf_append_singleton, hlast, ih fun r hr => h r (List.mem_append_left _ hr)]
      rfl

theorem prefix_stateNames (rules more : List Rule) :
    stateNames rules <+: stateNames (rules ++ more) := by
  induction more using List.reverseRecOn with
  | nil => simp
  | append_singleton more last ih =>
    rw [← List.append_assoc, stateNames_append_singleton]
    exact ih.trans (prefix_addRuleNames _ last)

theorem earlyCount_le (rules : List Rule) : earlyCount rules ≤ (stateNames rules).length := by
  have hcut := List.takeWhile_append_dropWhile (p := fun r : Rule => r.token.isNone) (l := rules)
  have hprefix := prefix_stateNames (rules.takeWhile fun r => r.token.isNone)
    (rules.dropWhile fun r => r.token.isNone)
  rw [hcut] at hprefix
  exact hprefix.length_le

/-- After the first token no state is early any more. -/
theorem earlyCount_of_tokens (h : tokensOf rules ≠ []) (r : Rule) :
    earlyCount (rules ++ [r]) = earlyCount rules := by
  have hnot : (rules.takeWhile fun r => r.token.isNone).length ≠ rules.length := by
    intro hlen
    refine h (tokensOf_eq_nil_iff.mpr fun r' hr' => ?_)
    have hall : (rules.takeWhile fun r => r.token.isNone) = rules :=
      (List.takeWhile_prefix _).eq_of_length hlen
    rw [← hall] at hr'
    simpa using List.mem_takeWhile_imp hr'
  rw [earlyCount, List.takeWhile_append, if_neg hnot]
  rfl

/-- The states before the first token are early. -/
theorem earlyCount_of_first (h : tokensOf rules = []) (hr : r.token ≠ none) :
    earlyCount (rules ++ [r]) = (stateNames rules).length := by
  have hall : (rules.takeWhile fun r => r.token.isNone) = rules :=
    List.takeWhile_eq_self_iff.mpr fun r' hr' => by simp [tokensOf_eq_nil_iff.mp h r' hr']
  have hstop : [r].takeWhile (fun r => r.token.isNone) = [] := by simp [hr]
  rw [earlyCount, List.takeWhile_append, hall, if_pos rfl, hstop, List.append_nil]

end Early

section Script

variable {β : Type} {fill : Fill β} {names : List String} {tokens : List Nat} {rules : List Rule}
  {r : Rule} {i j : Nat} {x x' : Rule → β} {v : Nat → Nat → β}

theorem Rule.writes_iff :
    r.writes names tokens i j = true ↔
      stateId names r.source = i ∧ tokenId tokens r.token = j := by
  simp [Rule.writes]

/-- An entry keeps its cell when states and tokens come in. -/
theorem Rule.writes_mono {names' : List String} {tokens' : List Nat}
    (hsource : Known names r.source) (htoken : KnownToken tokens r.token) (hn : names <+: names')
    (ht : tokens <+: tokens') : r.writes names' tokens' i j = r.writes names tokens i j := by
  simp only [Rule.writes, stateId_mono hsource hn, tokenId_mono htoken ht]

/-- Entries write into rows and columns that there are. -/
theorem find_writes_eq_none
    (h : (stateNames rules).length + 1 ≤ i ∨ (tokensOf rules).length + 1 ≤ j) :
    rules.reverse.find? (Rule.writes (stateNames rules) (tokensOf rules) i j) = none := by
  rw [List.find?_eq_none]
  intro r hr hwrites
  obtain ⟨hi, hj⟩ := Rule.writes_iff.mp hwrites
  obtain ⟨hsource, -, htoken⟩ := known_of_mem (List.mem_reverse.mp hr)
  have hrow := stateId_lt hsource
  have hcolumn := tokenId_lt htoken
  omega

/-- The last entry is looked at first. -/
theorem cellsOf_append_singleton (fill : Fill β) (rules : List Rule) (r : Rule) (x : Rule → β)
    (i j : Nat) :
    cellsOf fill (rules ++ [r]) x i j =
      if r.writes (addRuleNames (stateNames rules) r) (addToken (tokensOf rules) r.token) i j then
        x r
      else
        match rules.reverse.find? (Rule.writes (stateNames rules) (tokensOf rules) i j) with
        | some r => x r
        | none => blankCell fill (earlyCount (rules ++ [r])) i j := by
  have hsame : rules.reverse.find? (Rule.writes (stateNames (rules ++ [r]))
      (tokensOf (rules ++ [r])) i j) =
        rules.reverse.find? (Rule.writes (stateNames rules) (tokensOf rules) i j) := by
    refine List.find?_congr fun r' hr' => ?_
    obtain ⟨hsource, -, htoken⟩ := known_of_mem (List.mem_reverse.mp hr')
    rw [stateNames_append_singleton, tokensOf_append_singleton]
    exact Rule.writes_mono hsource htoken (prefix_addRuleNames _ r) (prefix_addToken _ _)
  rw [cellsOf, List.reverse_append, List.reverse_singleton, List.singleton_append,
    List.find?_cons, hsame, stateNames_append_singleton, tokensOf_append_singleton]
  cases r.writes (addRuleNames (stateNames rules) r) (addToken (tokensOf rules) r.token) i j <;> rfl

/-- A state of an entry leaves the rows that there are as they were. -/
theorem stateCells_old (id : Identifier) (hi : i < names.length + 1) :
    stateCells fill names id v i j = v i j := by
  unfold stateCells
  split
  · rfl
  · rw [rowCells, if_neg (by omega)]

/-- The row of a new state. -/
theorem stateCells_new {id : Identifier} (hi : names.length + 1 ≤ i)
    (hlt : i < (addName names id).length + 1) :
    stateCells fill names id v i j = if j = 0 then fill.stay i else fill.dflt := by
  have hne : addName names id ≠ names := fun heq => by
    rw [heq] at hlt
    omega
  have hlen : (addName names id).length ≤ names.length + 1 := by
    unfold addName
    split
    · omega
    · simp
  rw [stateCells, if_neg hne, rowCells, if_pos (by omega)]

/-- The states of an entry: the rows that there are stay as they were, and new rows say "stay"
in their first cell. -/
theorem statesCells_eq (r : Rule) (hlt : i < (addRuleNames names r).length + 1) :
    stateCells fill (addName names r.source) r.target
      (stateCells fill names r.source v) i j =
        if i < names.length + 1 then v i j else if j = 0 then fill.stay i else fill.dflt := by
  have hle := (prefix_addName names r.source).length_le
  by_cases hold : i < names.length + 1
  · rw [if_pos hold, stateCells_old _ (by omega), stateCells_old _ hold]
  · rw [if_neg hold]
    by_cases hsource : i < (addName names r.source).length + 1
    · rw [stateCells_old _ hsource, stateCells_new (by omega) hsource]
    · exact stateCells_new (by omega) hlt

/-- The token of an entry: the columns that there are stay as they were, and the cells of a new
one are filled. -/
theorem tokenCells_eq (token : Option Nat) (hlt : j < rowWidth (addToken tokens token) i) :
    tokenCells fill tokens token v i j =
      if j < rowWidth tokens i then v i j
      else if tokens = [] ∧ i ≠ 0 then fill.stay i else fill.dflt := by
  unfold tokenCells
  split
  · rename_i heq
    rw [heq] at hlt
    rw [if_pos hlt]
  · rename_i hne
    have hlen : (addToken tokens token).length ≤ tokens.length + 1 := by
      unfold addToken
      split
      · omega
      · split
        · omega
        · simp
    have hwidth : rowWidth (addToken tokens token) i ≤ rowWidth tokens i + 1 := by
      unfold rowWidth
      omega
    by_cases hold : j < rowWidth tokens i
    · rw [if_pos hold, columnCells, if_neg (by omega)]
    · rw [if_neg hold, columnCells, if_pos (by omega)]

/-- Blank cells stay blank. -/
theorem blankCell_old (r : Rule) (hj : j < rowWidth (tokensOf rules) i) :
    blankCell fill (earlyCount (rules ++ [r])) i j = blankCell fill (earlyCount rules) i j := by
  by_cases htokens : tokensOf rules = []
  · have hj2 : j ≠ 2 := by
      intro heq
      rw [rowWidth, htokens, heq] at hj
      split at hj <;> simp at hj
    simp [blankCell, hj2]
  · rw [earlyCount_of_tokens htokens]

/-- The new cell of a row that there is. -/
theorem blankCell_newColumn (hi : i < (stateNames rules).length + 1)
    (hj : rowWidth (tokensOf rules) i ≤ j)
    (hlt : j < rowWidth (addToken (tokensOf rules) r.token) i) :
    blankCell fill (earlyCount (rules ++ [r])) i j =
      if tokensOf rules = [] ∧ i ≠ 0 then fill.stay i else fill.dflt := by
  have htoken : r.token ≠ none := by
    intro hnone
    rw [hnone] at hlt
    exact absurd hlt (Nat.not_lt.mpr hj)
  have hlen : (addToken (tokensOf rules) r.token).length ≤ (tokensOf rules).length + 1 := by
    cases htok : r.token with
    | none => exact absurd htok htoken
    | some tok =>
      unfold addToken
      simp only
      split
      · omega
      · simp
  have hj' : j = rowWidth (tokensOf rules) i := by
    unfold rowWidth at hj hlt ⊢
    omega
  by_cases hzero : i = 0
  · simp [blankCell, hzero]
  by_cases htokens : tokensOf rules = []
  · have hearly := earlyCount_of_first htokens htoken
    have hj2 : j = 2 := by
      rw [hj', rowWidth, htokens, if_neg hzero]
      rfl
    have hle : i ≤ (stateNames rules).length := by omega
    simp [blankCell, hzero, htokens, hj2, hearly, hle]
  · have hpos : 0 < (tokensOf rules).length := List.length_pos_of_ne_nil htokens
    have hj0 : j ≠ 0 ∧ j ≠ 2 := by
      rw [hj', rowWidth, if_neg hzero]
      omega
    simp [blankCell, htokens, hj0]

/-- The cells of a new row. -/
theorem blankCell_newRow (hi : (stateNames rules).length + 1 ≤ i)
    (hlt : j < rowWidth (addToken (tokensOf rules) r.token) i) :
    blankCell fill (earlyCount (rules ++ [r])) i j = if j = 0 then fill.stay i else fill.dflt := by
  have hzero : i ≠ 0 := by omega
  by_cases hj2 : j = 2
  · have hle : earlyCount (rules ++ [r]) ≤ (stateNames rules).length := by
      by_cases htokens : tokensOf rules = []
      · cases htok : r.token with
        | none =>
          rw [htok, htokens, rowWidth, if_neg hzero, hj2] at hlt
          simp [addToken] at hlt
        | some tok => exact (earlyCount_of_first htokens (by simp [htok])).le
      · rw [earlyCount_of_tokens htokens]
        exact earlyCount_le rules
    have hlate : ¬ i ≤ earlyCount (rules ++ [r]) := by omega
    simp [blankCell, hj2, hlate]
  · simp [blankCell, hzero, hj2]

/-- What the actions of an entry do to the cells. -/
theorem ruleCells_cellsOf (hx : ∀ r ∈ rules, x r = x' r)
    (hi : i < (addRuleNames (stateNames rules) r).length + 1)
    (hj : j < rowWidth (addToken (tokensOf rules) r.token) i) :
    ruleCells fill (stateNames rules) (tokensOf rules) r (x' r) (cellsOf fill rules x) i j =
      cellsOf fill (rules ++ [r]) x' i j := by
  rw [cellsOf_append_singleton, ruleCells, setCell]
  by_cases hwrites : r.writes (addRuleNames (stateNames rules) r)
      (addToken (tokensOf rules) r.token) i j = true
  · obtain ⟨hrow, hcolumn⟩ := Rule.writes_iff.mp hwrites
    rw [if_pos ⟨hrow.symm, hcolumn.symm⟩, if_pos hwrites]
  · have hother : ¬ (i = stateId (addRuleNames (stateNames rules) r) r.source ∧
        j = tokenId (addToken (tokensOf rules) r.token) r.token) := fun hcell =>
      hwrites (Rule.writes_iff.mpr ⟨hcell.1.symm, hcell.2.symm⟩)
    rw [if_neg hother, if_neg hwrites, statesCells_eq r hi, tokenCells_eq r.token hj]
    by_cases hrow : i < (stateNames rules).length + 1
    · rw [if_pos hrow]
      by_cases hcolumn : j < rowWidth (tokensOf rules) i
      · -- a cell that there was
        rw [if_pos hcolumn, cellsOf, blankCell_old r hcolumn]
        cases hfind : rules.reverse.find?
            (Rule.writes (stateNames rules) (tokensOf rules) i j) with
        | none => rfl
        | some last => exact hx last (List.mem_reverse.mp (List.mem_of_find?_eq_some hfind))
      · have hout : (tokensOf rules).length + 1 ≤ j :=
          Nat.le_trans (Nat.le_add_right _ _) (Nat.not_lt.mp hcolumn)
        rw [if_neg hcolumn, find_writes_eq_none (.inr hout),
          blankCell_newColumn hrow (Nat.not_lt.mp hcolumn) hj]
    · rw [if_neg hrow, find_writes_eq_none (.inl (Nat.not_lt.mp hrow)),
        blankCell_newRow (Nat.not_lt.mp hrow) hj]

end Script

/-! ## The compiled tables -/

/-- The number of an entry's target in the goto table. -/
def targetId (rules : List Rule) (r : Rule) : Int := (stateId (stateNames rules) r.target : Nat)

/-- An entry's send in the send table. -/
def sendOf (r : Rule) : Option TuringSend := some (r.send.getD .nothing)

namespace Turing

variable {m m' : Turing} {rules : List Rule}

/-- The tables hold the entries of a script. -/
def Compiled (m : Turing) (rules : List Rule) : Prop :=
  m.Shape (stateNames rules) (tokensOf rules) (cellsOf gotoFill rules (targetId rules))
    (cellsOf sendFill rules sendOf)

/-- Compiling never reads or writes outside of the tables, and this is what it makes of them. -/
theorem compile_shape (m : Turing) (rules : List Rule) :
    ∃ m', m.clearTables.compile rules = .ok m' ∧ m'.Compiled rules ∧ SameControl m m' := by
  induction rules using List.reverseRecOn with
  | nil =>
    refine ⟨m.clearTables, rfl, ?_, ⟨rfl, rfl, rfl, rfl⟩⟩
    have hshape := clearTables_shape m
    refine { hshape with
      gotoTable := hshape.gotoTable.congr (fun _ _ => rfl) fun i j hi _ => ?_
      sendTable := hshape.sendTable.congr (fun _ _ => rfl) fun i j hi _ => ?_ }
    · have hzero : i = 0 := by simpa using hi
      simp [cellsOf, blankCell, hzero, gotoFill]
    · have hzero : i = 0 := by simpa using hi
      simp [cellsOf, blankCell, hzero, sendFill]
  | append_singleton rules r ih =>
    obtain ⟨m₁, hcompile, hshape, hsame⟩ := ih
    obtain ⟨m', hrule, hshape', hsame'⟩ := compileRule_shape hshape r
    refine ⟨m', ?_, ?_, hsame.trans hsame'⟩
    · rw [compile, List.foldlM_append]
      change (m.clearTables.compile rules >>= _) = _
      rw [hcompile, ok_bind, List.foldlM_cons, hrule]
      rfl
    · have htarget : ∀ r' ∈ rules, targetId rules r' = targetId (rules ++ [r]) r' := by
        intro r' hr'
        rw [targetId, targetId, stateNames_append_singleton,
          stateId_mono (known_of_mem hr').2.1 (prefix_addRuleNames _ r)]
      rw [Compiled, stateNames_append_singleton, tokensOf_append_singleton]
      refine { hshape' with
        gotoTable := hshape'.gotoTable.congr (fun _ _ => rfl) fun i j hi hj => ?_
        sendTable := hshape'.sendTable.congr (fun _ _ => rfl) fun i j hi hj => ?_ }
      · have hlast : ((stateId (addRuleNames (stateNames rules) r) r.target : Nat) : Int) =
            targetId (rules ++ [r]) r := by
          rw [targetId, stateNames_append_singleton]
        rw [hlast]
        exact ruleCells_cellsOf htarget hi hj
      · exact ruleCells_cellsOf (fun _ _ => rfl) hi hj

end Turing

end Rubyk
