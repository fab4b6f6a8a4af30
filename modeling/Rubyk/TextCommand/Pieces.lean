/-
  TextCommand/Pieces.lean --- what the parser does on the pieces of a line.

  A piece is a part of a line during which the machine only performs one kind of
  actions: the letters of a name (`a`), blanks and comments (none), the text between
  parentheses (`params` on every byte).  Restricted to these actions the machine is
  an automaton, and a table that agrees with the expression of the piece says where
  it ends (`Table.accepts_iff_matches`).
-/
import Rubyk.TextCommand.Grammar

set_option autoImplicit false

namespace Rubyk.TextCommand

open Lib

variable {m m' : TextCommand} {c : UInt8} {w : Bytes} {q : Nat} {acts : List Act}

/-! ## One byte -/

/-- Actions that leave the machine where the transition put it. -/
def Plain (acts : List Act) : Prop := .error ∉ acts ∧ .gotoMain ∉ acts

instance (acts : List Act) : Decidable (Plain acts) := inferInstanceAs (Decidable (_ ∧ _))

/-- The actions, one after the other. -/
def actAll (c : UInt8) (acts : List Act) (m : TextCommand) : TextCommand :=
  acts.foldl (fun m action => m.act c action) m

theorem perform_plain (h : Plain acts) (m : TextCommand) :
    perform c acts m = (false, actAll c acts m) := by
  induction acts generalizing m with
  | nil => rfl
  | cons action actions ih =>
    obtain ⟨herror, hgoto⟩ := h
    have hrest : Plain actions :=
      ⟨fun hmem => herror (List.mem_cons_of_mem _ hmem),
        fun hmem => hgoto (List.mem_cons_of_mem _ hmem)⟩
    cases action with
    | error => exact absurd List.mem_cons_self herror
    | gotoMain => exact absurd List.mem_cons_self hgoto
    | _ => exact ih hrest _

theorem transTargs_lt : ∀ q ∈ transTargs, q < 84 := by decide +kernel

/-- Transitions lead to states of the machine. -/
theorem delta_lt (cs : Nat) (k : Cls) : (delta cs k).1 < 84 := by
  rw [delta_eq_transition, transition]
  rcases at_mem transTargs (trans cs k.rep.toNat) with h | h
  · exact lt_of_eq_of_lt h (by decide)
  · exact transTargs_lt _ h

/-- A state out of which transitions are taken. -/
def Running (m : TextCommand) : Prop := m.currentState ≠ 0 ∧ m.currentState < 84

theorem exec_eq (h : Running m) (c : UInt8) :
    m.exec c = perform c (delta m.currentState (Cls.of c)).2
      { m with currentState := (delta m.currentState (Cls.of c)).1 } := by
  rw [exec, transition_eq_delta h.2]

theorem readChar_plain (h : Running m) (hd : delta m.currentState (Cls.of c) = (q, acts))
    (hacts : Plain acts) :
    m.readChar c = actAll c acts { m with currentState := q } := by
  rw [readChar, if_neg h.1, exec_eq h, hd, perform_plain hacts]

/-- A byte of a known class in a known state. -/
theorem readChar_of {q₁ : Nat} {k : Cls} (hlive : q₁ ≠ 0 ∧ q₁ < 84) (hc : Cls.of c = k)
    (hd : delta q₁ k = (q, acts)) (hacts : Plain acts) (hq : m.currentState = q₁) :
    m.readChar c = actAll c acts { m with currentState := q } := by
  subst hq hc
  exact readChar_plain hlive hd hacts

theorem readChar_silent {q₁ : Nat} {k : Cls} (hlive : q₁ ≠ 0 ∧ q₁ < 84) (hc : Cls.of c = k)
    (hd : delta q₁ k = (q, [])) (hq : m.currentState = q₁) :
    m.readChar c = { m with currentState := q } :=
  readChar_of hlive hc hd (by decide) hq

@[simp] theorem parse_nil (m : TextCommand) : m.parse [] = m := rfl

@[simp] theorem parse_cons (m : TextCommand) (c : UInt8) (w : Bytes) :
    m.parse (c :: w) = (m.readChar c).parse w := rfl

/-- Every cut point is harmless. -/
@[simp] theorem parse_append (m : TextCommand) (v w : Bytes) :
    m.parse (v ++ w) = (m.parse v).parse w := List.foldl_append

/-- Blocks of text, however it is cut. -/
theorem parse_flatten (m : TextCommand) (blocks : List Bytes) :
    blocks.foldl parse m = m.parse blocks.flatten := by
  induction blocks generalizing m with
  | nil => rfl
  | cons block blocks ih => rw [List.foldl_cons, ih, List.flatten_cons, parse_append]

/-! ## Pieces -/

/-- The machine as long as it performs allowed actions. -/
def pieceStep (allowed : List Act → Bool) (cs : Nat) (k : Cls) : Option Nat :=
  bif allowed (delta cs k).2 && !(delta cs k).1.beq 0 then some (delta cs k).1 else none

theorem pieceStep_eq_some {allowed : List Act → Bool} {cs : Nat} {k : Cls}
    (h : pieceStep allowed cs k = some q) :
    allowed (delta cs k).2 = true ∧ q ≠ 0 ∧ (delta cs k).1 = q := by
  unfold pieceStep at h
  cases hcond : allowed (delta cs k).2 && !(delta cs k).1.beq 0 with
  | false => simp [hcond] at h
  | true =>
    obtain rfl : (delta cs k).1 = q := by simpa [hcond] using h
    obtain ⟨hallowed, hne⟩ := Bool.and_eq_true _ _ ▸ hcond
    exact ⟨hallowed, fun h0 => by simp [h0] at hne, rfl⟩

theorem act_currentState {action : Act} (herror : action ≠ .error)
    (hgoto : action ≠ .gotoMain) : (m.act c action).currentState = m.currentState := by
  cases action with
  | error => exact absurd rfl herror
  | gotoMain => exact absurd rfl hgoto
  | executeCommand =>
    simp only [act, executeCommand]
    split
    · rfl
    · split <;> rfl
  | _ => rfl

theorem actAll_currentState (h : Plain acts) (m : TextCommand) :
    (actAll c acts m).currentState = m.currentState := by
  induction acts generalizing m with
  | nil => rfl
  | cons action actions ih =>
    obtain ⟨herror, hgoto⟩ := h
    have hrest : Plain actions :=
      ⟨fun hmem => herror (List.mem_cons_of_mem _ hmem),
        fun hmem => hgoto (List.mem_cons_of_mem _ hmem)⟩
    have hhead : (m.act c action).currentState = m.currentState :=
      act_currentState (fun h => herror (h ▸ List.mem_cons_self))
        fun h => hgoto (h ▸ List.mem_cons_self)
    exact (ih hrest _).trans hhead

/-- What allowed actions keep, a whole piece keeps. -/
theorem parse_piece (allowed : List Act → Bool) {Q : Bytes → TextCommand → Prop}
    (hplain : ∀ acts, allowed acts = true → Plain acts)
    (hstep : ∀ w m' c acts q, Q w m' → allowed acts = true →
      Q (w ++ [c]) (actAll c acts { m' with currentState := q }))
    (hm : Running m) (hQ : Q [] m)
    (hrun : (w.map Cls.of).foldlM (pieceStep allowed) m.currentState = some q) :
    Running (m.parse w) ∧ (m.parse w).currentState = q ∧ Q w (m.parse w) := by
  induction w using List.reverseRecOn generalizing q with
  | nil =>
    obtain rfl : m.currentState = q := by simpa using hrun
    exact ⟨hm, rfl, hQ⟩
  | append_singleton w c ih =>
    rw [List.map_append, List.foldlM_append] at hrun
    obtain ⟨mid, hmid, hlast⟩ := Option.bind_eq_some_iff.mp hrun
    obtain ⟨hrunning, hstate, hbefore⟩ := ih hmid
    have hlast' : pieceStep allowed mid (Cls.of c) = some q := by simpa using hlast
    obtain ⟨hallowed, hq, htarget⟩ := pieceStep_eq_some hlast'
    have hread := readChar_plain hrunning
      (show delta (m.parse w).currentState (Cls.of c) = (q, (delta mid (Cls.of c)).2) by
        rw [hstate, ← htarget]) (hplain _ hallowed)
    have hcs : (m.parse (w ++ [c])).currentState = q := by
      rw [parse_append, parse_cons, parse_nil, hread, actAll_currentState (hplain _ hallowed)]
    refine ⟨⟨hcs ▸ hq, hcs ▸ htarget ▸ delta_lt _ _⟩, hcs, ?_⟩
    rw [parse_append, parse_cons, parse_nil, hread]
    exact hstep w _ c _ q hbefore hallowed

/-! ## Names -/

/-- A letter is appended to the token. -/
def letter (acts : List Act) : Bool := acts == [.a]

/-- Where a name of the expression can start, and the states it can end in. -/
def letterContexts : List (Nat × RegularExpression Cls × List Nat) :=
  [(1, Grammar.identifier, [4, 80]), (82, Grammar.identifier, [4, 80]),
    (36, Grammar.identifier, [37, 41]), (38, Grammar.identifier, [39, 40]),
    (43, Grammar.identifier, [44, 48]), (45, Grammar.identifier, [46, 47]),
    (75, Grammar.identifier, [76, 79]), (6, Grammar.class_, [8]), (7, Grammar.class_, [8])]

/-- The table of a context. -/
def lettersTable {x : Nat × RegularExpression Cls × List Nat} (hx : x ∈ letterContexts) :
    Table (pieceStep letter) (fun q => x.2.2.contains q) Cls.all x.1 x.2.1 :=
  have hall : (letterContexts.all fun x =>
      (explore id (pieceStep letter) (fun q => x.2.2.contains q) Cls.all 100
        [(x.1, [x.2.1])] []).isSome) = true := by
    decide +kernel
  .ofExplore (List.all_eq_true.mp hall x hx)

/-- A name is collected in the token. -/
theorem parse_letters {r : RegularExpression Cls} {ends : List Nat}
    (hctx : (m.currentState, r, ends) ∈ letterContexts) (hm : Running m) (hw : InLang r w) :
    ∃ q ∈ ends, m.parse w = { m with token := m.token ++ w, currentState := q } := by
  obtain ⟨q, hrun, hend⟩ := ((lettersTable hctx).accepts_iff_matches Cls.mem_all _).mpr hw
  have hpiece := parse_piece letter
    (Q := fun w m' => m' = { m with token := m.token ++ w, currentState := m'.currentState })
    (fun acts h => by rw [eq_of_beq h]; decide) ?_ hm (by simp) hrun
  · obtain ⟨-, hstate, heq⟩ := hpiece
    exact ⟨q, by simpa using hend, by rw [heq, hstate]⟩
  · intro w m' c acts q hQ hallowed
    rw [eq_of_beq hallowed, hQ]
    simp [actAll, act]

/-! ## Text between parentheses -/

/-- The actions on bytes between parentheses: each goes to the parameter string. -/
def parameterActs : List (List Act) :=
  [[.params], [.a, .params], [.setValue, .params], [.setValue, .a, .params],
    [.a, .setValue, .params]]

/-- The byte is part of the text between parentheses. -/
def parameter (acts : List Act) : Bool := decide (acts ∈ parameterActs)

theorem plain_of_parameter (h : acts ∈ parameterActs) : Plain acts := by
  have hall : ∀ acts ∈ parameterActs, Plain acts := by decide
  exact hall acts h

/-- Only the token, the value, the parameter string and the state change. -/
theorem actAll_parameter (h : acts ∈ parameterActs) (c : UInt8) (m : TextCommand) :
    ∃ token value, actAll c acts m =
      { m with
        token := token
        value := value
        parameterString := m.parameterString ++ [c] } := by
  simp only [parameterActs, List.mem_cons, List.not_mem_nil, or_false] at h
  rcases h with rfl | rfl | rfl | rfl | rfl <;> exact ⟨_, _, rfl⟩

/-- The state before a text between parentheses and the state after them. -/
def paramContexts : List (Nat × Nat) := [(9, 18), (49, 58)]

/-- The text is over when the parenthesis closes. -/
def closes (after q : Nat) : Bool :=
  decide (delta q .rightParen = (after, []) ∨ delta q .rightParen = (after, [.setValue]))

/-- The table of a context. -/
def paramsTable {x : Nat × Nat} (hx : x ∈ paramContexts) :
    Table (pieceStep parameter) (closes x.2) Cls.all x.1 (opt Grammar.parameters) :=
  have hall : (paramContexts.all fun x =>
      (explore id (pieceStep parameter) (closes x.2) Cls.all 1000
        [(x.1, [opt Grammar.parameters])] []).isSome) = true := by
    decide +kernel
  .ofExplore (List.all_eq_true.mp hall x hx)

/-- The text between the parentheses is collected in the parameter string. -/
theorem parse_params {after : Nat} (hctx : (m.currentState, after) ∈ paramContexts)
    (hm : Running m) (hw : Params w) :
    ∃ token value, m.parse (w ++ [ch ')']) =
      { m with
        token := token
        value := value
        parameterString := m.parameterString ++ w
        currentState := after } := by
  obtain ⟨q, hrun, hend⟩ := ((paramsTable hctx).accepts_iff_matches Cls.mem_all _).mpr hw
  have hpiece := parse_piece parameter
    (Q := fun w m' => ∃ token value, m' =
      { m with
        token := token
        value := value
        parameterString := m.parameterString ++ w
        currentState := m'.currentState })
    (fun acts h => plain_of_parameter (of_decide_eq_true h)) ?_ hm
    ⟨m.token, m.value, by simp⟩ hrun
  · obtain ⟨hrunning, hstate, token, value, heq⟩ := hpiece
    have hclose : delta q .rightParen = (after, []) ∨
        delta q .rightParen = (after, [.setValue]) := of_decide_eq_true hend
    have hparen : Cls.of (ch ')') = .rightParen := by decide
    rw [parse_append, parse_cons, parse_nil]
    rcases hclose with hclose | hclose
    · rw [readChar_plain hrunning (by rw [hstate, hparen, hclose]) (by decide), heq]
      exact ⟨_, _, rfl⟩
    · rw [readChar_plain hrunning (by rw [hstate, hparen, hclose]) (by decide), heq]
      exact ⟨_, _, rfl⟩
  · rintro w m' c acts q ⟨token, value, hQ⟩ hallowed
    obtain ⟨token', value', heq⟩ :=
      actAll_parameter (of_decide_eq_true hallowed) c { m' with currentState := q }
    refine ⟨token', value', ?_⟩
    rw [heq, hQ]
    simp

/-! ## Blanks and comments -/

/-- Blanks leave the state as it is. -/
def SkipsBlanks (q : Nat) : Prop := delta q .space = (q, []) ∧ delta q .tab = (q, [])

instance (q : Nat) : Decidable (SkipsBlanks q) := inferInstanceAs (Decidable (_ ∧ _))

theorem parse_blanks (hq : SkipsBlanks m.currentState) (hm : Running m) (hw : Blanks w) :
    m.parse w = m := by
  induction w with
  | nil => rfl
  | cons c w ih =>
    have hd : delta m.currentState (Cls.of c) = (m.currentState, []) := by
      rcases hw c List.mem_cons_self with h | h
      · rw [h, hq.1]
      · rw [h, hq.2]
    have hread : m.readChar c = m := readChar_plain hm hd (by decide)
    rw [parse_cons, hread]
    exact ih fun d hd => hw d (List.mem_cons_of_mem c hd)

/-- Actions that do not look at the byte. -/
def Quiet (acts : List Act) : Prop := Plain acts ∧ .a ∉ acts ∧ .params ∉ acts

instance (acts : List Act) : Decidable (Quiet acts) := inferInstanceAs (Decidable (_ ∧ _))

theorem act_quiet {action : Act} (herror : action ≠ .error) (hgoto : action ≠ .gotoMain)
    (ha : action ≠ .a) (hparams : action ≠ .params) (c d : UInt8) (m : TextCommand) (q : Nat) :
    act { m with currentState := q } c action =
      { m.act d action with currentState := q } := by
  cases action with
  | error => exact absurd rfl herror
  | gotoMain => exact absurd rfl hgoto
  | a => exact absurd rfl ha
  | params => exact absurd rfl hparams
  | executeCommand =>
    simp only [act, executeCommand]
    split
    · rfl
    · split <;> rfl
  | _ => rfl

/-- Quiet actions and the state do not depend on each other. -/
theorem actAll_quiet (h : Quiet acts) (c d : UInt8) (m : TextCommand) (q : Nat) :
    actAll c acts { m with currentState := q } =
      { actAll d acts m with currentState := q } := by
  induction acts generalizing m with
  | nil => rfl
  | cons action actions ih =>
    obtain ⟨⟨herror, hgoto⟩, ha, hparams⟩ := h
    simp only [List.mem_cons, not_or] at herror hgoto ha hparams
    have hhead := act_quiet (Ne.symm herror.1) (Ne.symm hgoto.1) (Ne.symm ha.1)
      (Ne.symm hparams.1) c d m q
    have hrest := ih ⟨⟨herror.2, hgoto.2⟩, ha.2, hparams.2⟩ (m.act d action)
    simp only [actAll, List.foldl_cons] at hrest ⊢
    rw [hhead, hrest]

/-- Blanks or none, and then a byte: the first byte of these performs the actions. -/
theorem parse_blanks_then {q₁ q₂ : Nat} {k : Cls}
    (hblank : delta m.currentState .space = (q₁, acts) ∧ delta m.currentState .tab = (q₁, acts))
    (hskip : SkipsBlanks q₁) (hk : delta m.currentState k = (q₂, acts))
    (hk₁ : delta q₁ k = (q₂, [])) (hacts : Quiet acts) (hq₁ : q₁ ≠ 0) (hm : Running m)
    (hw : Blanks w) (hc : Cls.of c = k) :
    m.parse (w ++ [c]) = { actAll 0 acts m with currentState := q₂ } := by
  cases w with
  | nil =>
    have hread := readChar_plain hm (hc ▸ hk) hacts.1
    rw [List.nil_append, parse_cons, parse_nil, hread, actAll_quiet hacts c 0]
  | cons b w =>
    have hb : delta m.currentState (Cls.of b) = (q₁, acts) := by
      rcases hw b List.mem_cons_self with h | h
      · rw [h, hblank.1]
      · rw [h, hblank.2]
    have hread : m.readChar b = { actAll 0 acts m with currentState := q₁ } := by
      rw [readChar_plain hm hb hacts.1, actAll_quiet hacts b 0]
    have hlt : q₁ < 84 := by
      have h := delta_lt m.currentState .space
      rwa [hblank.1] at h
    have hrunning : Running { actAll 0 acts m with currentState := q₁ } := ⟨hq₁, hlt⟩
    rw [List.cons_append, parse_cons, hread, parse_append,
      parse_blanks hskip hrunning fun d hd => hw d (List.mem_cons_of_mem b hd), parse_cons,
      parse_nil, readChar_plain hrunning (hc ▸ hk₁) (by decide)]
    rfl

theorem delta_comment : ∀ k, k ≠ .newline → delta 3 k = (3, []) := by
  have h : ∀ k ∈ Cls.all, k ≠ .newline → delta 3 k = (3, []) := by decide +kernel
  exact fun k => h k (Cls.mem_all k)

/-- A comment has no effect. -/
theorem parse_comment (hq : m.currentState = 3) (hw : ∀ c ∈ w, c ≠ ch '\n') :
    m.parse w = m := by
  have hm : Running m := by rw [Running, hq]; decide
  induction w with
  | nil => rfl
  | cons c w ih =>
    have hd : delta m.currentState (Cls.of c) = (m.currentState, []) := by
      rw [hq]
      exact delta_comment _ fun h => hw c List.mem_cons_self (Cls.of_eq_newline.mp h)
    have hread : m.readChar c = m := readChar_plain hm hd (by decide)
    rw [parse_cons, hread]
    exact ih fun d hd => hw d (List.mem_cons_of_mem c hd)

end Rubyk.TextCommand
