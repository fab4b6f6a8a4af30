/-
  `Lib.PartialDerivatives`: regular expressions against automata.

  The partial derivatives of a regular expression by a letter are a list of
  expressions that together match what the expression matches after that letter.
  An automaton state and a list of expressions that stay in step under every letter
  agree on every word, which a finite table of such pairs shows (`Table`).  The table is
  found, and checked on the way, by exploring what a first pair leads to (`explore`).

  Regular expressions and their languages are Mathlib's.  Nothing here is about a
  particular program.
-/
import Mathlib.Computability.RegularExpressions

set_option autoImplicit false

namespace Rubyk.Lib

open RegularExpression

variable {α σ : Type} {r s : RegularExpression α} {a : α} {w : List α}

/-! ## Equality -/

/-- The expressions are the same. -/
def sameExpression [DecidableEq α] : RegularExpression α → RegularExpression α → Bool
  | .zero, .zero => true
  | .epsilon, .epsilon => true
  | .char a, .char b => decide (a = b)
  | .plus r r', .plus s s' => sameExpression r s && sameExpression r' s'
  | .comp r r', .comp s s' => sameExpression r s && sameExpression r' s'
  | .star r, .star s => sameExpression r s
  | _, _ => false

theorem sameExpression_iff [DecidableEq α] : sameExpression r s = true ↔ r = s := by
  constructor
  · intro h
    induction r generalizing s with
    | zero =>
      cases s with
      | zero => rfl
      | _ => simp [sameExpression] at h
    | epsilon =>
      cases s with
      | epsilon => rfl
      | _ => simp [sameExpression] at h
    | char a =>
      cases s with
      | char b => rw [of_decide_eq_true h]
      | _ => simp [sameExpression] at h
    | plus r r' ihr ihr' =>
      cases s with
      | plus s s' =>
        obtain ⟨hr, hr'⟩ := Bool.and_eq_true _ _ ▸ h
        rw [ihr hr, ihr' hr']
      | _ => simp [sameExpression] at h
    | comp r r' ihr ihr' =>
      cases s with
      | comp s s' =>
        obtain ⟨hr, hr'⟩ := Bool.and_eq_true _ _ ▸ h
        rw [ihr hr, ihr' hr']
      | _ => simp [sameExpression] at h
    | star r ih =>
      cases s with
      | star s => rw [ih h]
      | _ => simp [sameExpression] at h
  · rintro rfl
    induction r with
    | char a => exact decide_eq_true rfl
    | plus r r' ihr ihr' => simp [sameExpression, ihr, ihr']
    | comp r r' ihr ihr' => simp [sameExpression, ihr, ihr']
    | star r ih => exact ih
    | _ => rfl

instance decidableEqExpression [DecidableEq α] : DecidableEq (RegularExpression α) :=
  fun _ _ => decidable_of_iff _ sameExpression_iff

/-! ## Derived expressions -/

/-- One letter out of a list. -/
def oneOf (l : List α) : RegularExpression α := l.foldr (fun a r => char a + r) 0

/-- The expression, or nothing. -/
def opt (r : RegularExpression α) : RegularExpression α := r + 1

/-- The expression, once or more. -/
def many (r : RegularExpression α) : RegularExpression α := r * r.star

@[simp] theorem mem_oneOf {l : List α} : w ∈ (oneOf l).matches' ↔ ∃ a ∈ l, w = [a] := by
  induction l with
  | nil => simp [oneOf]
  | cons b l ih =>
    have hcons : oneOf (b :: l) = char b + oneOf l := rfl
    have hchar : w ∈ (char b).matches' ↔ w = [b] := Iff.rfl
    rw [hcons, matches'_add, Language.mem_add, ih, hchar]
    simp

@[simp] theorem mem_opt : w ∈ (opt r).matches' ↔ w ∈ r.matches' ∨ w = [] := by
  simp [opt, Language.mem_add]

/-- A word of letters that each match. -/
theorem mem_star_oneOf {l : List α} : w ∈ (oneOf l).star.matches' ↔ ∀ a ∈ w, a ∈ l := by
  rw [matches'_star, Language.mem_kstar]
  constructor
  · rintro ⟨ws, rfl, h⟩ a ha
    obtain ⟨v, hv, hav⟩ := List.mem_flatten.mp ha
    obtain ⟨b, hb, rfl⟩ := mem_oneOf.mp (h v hv)
    obtain rfl : a = b := by simpa using hav
    exact hb
  · intro h
    refine ⟨w.map fun a => [a], by rw [← List.flatMap_def, List.flatMap_singleton'], ?_⟩
    intro v hv
    obtain ⟨a, ha, rfl⟩ := List.mem_map.mp hv
    exact mem_oneOf.mpr ⟨a, h a ha, rfl⟩

/-! ## Lists of expressions -/

/-- What a list of expressions matches together. -/
def Matches (rs : List (RegularExpression α)) (w : List α) : Prop :=
  ∃ r ∈ rs, w ∈ r.matches'

@[simp] theorem matches_nil : ¬ Matches ([] : List (RegularExpression α)) w := by
  simp [Matches]

@[simp] theorem matches_append {rs rs' : List (RegularExpression α)} :
    Matches (rs ++ rs') w ↔ Matches rs w ∨ Matches rs' w := by
  simp [Matches, or_and_right, exists_or]

theorem matches_map_mul {rs : List (RegularExpression α)} :
    Matches (rs.map (· * s)) w ↔ ∃ u v, Matches rs u ∧ v ∈ s.matches' ∧ u ++ v = w := by
  simp only [Matches, List.mem_map, exists_exists_and_eq_and, matches'_mul, Language.mem_mul]
  constructor
  · rintro ⟨r, hr, u, hu, v, hv, rfl⟩
    exact ⟨u, v, ⟨r, hr, hu⟩, hv, rfl⟩
  · rintro ⟨u, v, ⟨r, hr, hu⟩, hv, rfl⟩
    exact ⟨r, hr, u, hu, v, hv, rfl⟩

/-! ## Partial derivatives -/

section Derivatives

variable [DecidableEq α]

/-- What an expression still has to match after the letter. -/
def pderiv (a : α) : RegularExpression α → List (RegularExpression α)
  | .zero => []
  | .epsilon => []
  | .char b => if b = a then [1] else []
  | .plus r s => pderiv a r ++ pderiv a s
  | .comp r s => (pderiv a r).map (· * s) ++ if r.matchEpsilon then pderiv a s else []
  | .star r => (pderiv a r).map (· * r.star)

/-- The partial derivatives of a list, without repetition. -/
def pderivs (a : α) (rs : List (RegularExpression α)) : List (RegularExpression α) :=
  (rs.flatMap (pderiv a)).dedup

theorem mem_cons_iff_deriv : a :: w ∈ r.matches' ↔ w ∈ (r.deriv a).matches' := by
  rw [← rmatch_iff_matches', rmatch, rmatch_iff_matches']

/-- The partial derivatives together match what the derivative matches. -/
theorem matches_pderiv (r : RegularExpression α) (a : α) (w : List α) :
    Matches (pderiv a r) w ↔ w ∈ (r.deriv a).matches' := by
  induction r generalizing w with
  | zero => exact iff_of_false matches_nil (Language.notMem_zero w)
  | epsilon => exact iff_of_false matches_nil (Language.notMem_zero w)
  | char b =>
    by_cases h : b = a
    · simp [pderiv, h, Matches]
    · simp [pderiv, h, deriv_char_of_ne h, Language.notMem_zero]
  | plus r s ihr ihs => simp [pderiv, ihr, ihs, Language.mem_add]
  | comp r s ihr ihs =>
    have hhead : Matches ((pderiv a r).map (· * s)) w ↔ w ∈ (r.deriv a * s).matches' := by
      rw [matches_map_mul, matches'_mul, Language.mem_mul]
      simp only [ihr]
      constructor
      · rintro ⟨u, v, hu, hv, rfl⟩
        exact ⟨u, hu, v, hv, rfl⟩
      · rintro ⟨u, hu, v, hv, rfl⟩
        exact ⟨u, v, hu, hv, rfl⟩
    have hderiv : (comp r s).deriv a =
        if r.matchEpsilon then r.deriv a * s + s.deriv a else r.deriv a * s := rfl
    rw [pderiv, matches_append, hhead, hderiv]
    by_cases he : r.matchEpsilon
    · simp only [he, if_true, ihs, matches'_add, Language.mem_add]
    · simp [he]
  | star r ih =>
    rw [pderiv, matches_map_mul, deriv_star, matches'_mul, Language.mem_mul]
    simp only [ih]
    constructor
    · rintro ⟨u, v, hu, hv, rfl⟩
      exact ⟨u, hu, v, hv, rfl⟩
    · rintro ⟨u, hu, v, hv, rfl⟩
      exact ⟨u, v, hu, hv, rfl⟩

theorem matches_pderivs (a : α) (rs : List (RegularExpression α)) (w : List α) :
    Matches (pderivs a rs) w ↔ Matches rs (a :: w) := by
  simp only [pderivs, Matches, List.mem_dedup, List.mem_flatMap, mem_cons_iff_deriv,
    ← matches_pderiv]
  constructor
  · rintro ⟨t, ⟨r, hr, ht⟩, hw⟩
    exact ⟨r, hr, t, ht, hw⟩
  · rintro ⟨r, hr, t, ht, hw⟩
    exact ⟨t, ⟨r, hr, ht⟩, hw⟩

theorem matches_empty (rs : List (RegularExpression α)) :
    Matches rs [] ↔ rs.any matchEpsilon = true := by
  simp only [Matches, List.any_eq_true]
  refine exists_congr fun r => and_congr_right fun _ => ?_
  rw [← rmatch_iff_matches']
  rfl

/-! ## Automata in step with expressions -/

variable {step : σ → α → Option σ} {final : σ → Bool} {letters : List α}
  {p : σ × List (RegularExpression α)}

/-- The automaton and the expressions agree here: it is final where they can stop, and where
it has no step they have nothing to match. -/
def agreesAt (step : σ → α → Option σ) (final : σ → Bool) (letters : List α)
    (p : σ × List (RegularExpression α)) : Bool :=
  (final p.1 == p.2.any matchEpsilon) &&
    letters.all fun a => (step p.1 a).isSome || (pderivs a p.2).isEmpty

/-- The pairs a pair leads to. -/
def successors (step : σ → α → Option σ) (letters : List α)
    (p : σ × List (RegularExpression α)) : List (σ × List (RegularExpression α)) :=
  letters.filterMap fun a => (step p.1 a).map fun q => (q, pderivs a p.2)

/-- The automaton agrees with the expressions in this pair, and what it leads to is in the
table. -/
structure Follows (step : σ → α → Option σ) (final : σ → Bool) (letters : List α)
    (table : List (σ × List (RegularExpression α))) (p : σ × List (RegularExpression α)) :
    Prop where
  agrees : agreesAt step final letters p = true
  successors : ∀ q ∈ successors step letters p, q ∈ table

/-! ## Tables -/

/-- The pairs that a word can lead to, from a state and an expression. -/
structure Table (step : σ → α → Option σ) (final : σ → Bool) (letters : List α) (q : σ)
    (r : RegularExpression α) where
  rows : List (σ × List (RegularExpression α))
  start : (q, [r]) ∈ rows
  closed : ∀ p ∈ rows, Follows step final letters rows p

namespace Table

variable {q q' : σ} {rs : List (RegularExpression α)}

theorem final_iff (table : Table step final letters q r) (hq : (q', rs) ∈ table.rows) :
    final q' = true ↔ Matches rs [] := by
  have hrow := (Bool.and_eq_true _ _ ▸ (table.closed _ hq).agrees).1
  rw [matches_empty, ← eq_of_beq hrow]

theorem mem_step (table : Table step final letters q r) (hletters : ∀ a, a ∈ letters)
    (hq : (q', rs) ∈ table.rows) (a : α) :
    match step q' a with
    | none => pderivs a rs = []
    | some q'' => (q'', pderivs a rs) ∈ table.rows := by
  have hrow := (Bool.and_eq_true _ _ ▸ (table.closed _ hq).agrees).2
  have ha := List.all_eq_true.mp hrow a (hletters a)
  cases hstep : step q' a with
  | none => simpa [hstep] using ha
  | some q'' =>
    refine (table.closed _ hq).successors _ (List.mem_filterMap.mpr ⟨a, hletters a, ?_⟩)
    rw [hstep]
    rfl

theorem accepts_iff_matches_of_mem (table : Table step final letters q r)
    (hletters : ∀ a, a ∈ letters) (hq : (q', rs) ∈ table.rows) (w : List α) :
    (∃ q'', w.foldlM step q' = some q'' ∧ final q'' = true) ↔ Matches rs w := by
  induction w generalizing q' rs with
  | nil =>
    rw [← table.final_iff hq]
    simp
  | cons a w ih =>
    have ha := table.mem_step hletters hq a
    rw [← matches_pderivs, List.foldlM_cons]
    cases hstep : step q' a with
    | none =>
      have hnil : pderivs a rs = [] := by simpa [hstep] using ha
      simp [hnil]
    | some q'' =>
      have hmem : (q'', pderivs a rs) ∈ table.rows := by simpa [hstep] using ha
      exact ih hmem

/-- The automaton accepts the language of the expression. -/
theorem accepts_iff_matches (table : Table step final letters q r)
    (hletters : ∀ a, a ∈ letters) (w : List α) :
    (∃ q', w.foldlM step q = some q' ∧ final q' = true) ↔ w ∈ r.matches' := by
  rw [table.accepts_iff_matches_of_mem hletters table.start]
  simp [Matches]

/-- A run stays in the table, and what its last expressions match is what can still
follow. -/
theorem exists_mem_of_run (table : Table step final letters q r)
    (hletters : ∀ a, a ∈ letters) (hrun : w.foldlM step q = some q') :
    ∃ rs, (q', rs) ∈ table.rows ∧ ∀ v, Matches rs v ↔ w ++ v ∈ r.matches' := by
  induction w using List.reverseRecOn generalizing q' with
  | nil =>
    obtain rfl : q = q' := by simpa using hrun
    exact ⟨[r], table.start, fun v => by simp [Matches]⟩
  | append_singleton w a ih =>
    rw [List.foldlM_append] at hrun
    obtain ⟨mid, hmid, hlast⟩ := Option.bind_eq_some_iff.mp hrun
    obtain ⟨rs, hrs, hfollow⟩ := ih hmid
    have hlast' : step mid a = some q' := by simpa using hlast
    have ha := table.mem_step hletters hrs a
    refine ⟨pderivs a rs, by simpa [hlast'] using ha, fun v => ?_⟩
    rw [matches_pderivs, hfollow, List.append_assoc, List.singleton_append]

end Table

/-! ## Exploration -/

section Explore

variable [DecidableEq σ] {q : σ}

/-- The pair is in the list.  Only pairs with its key are compared with it. -/
def inTable (key : σ → Nat) (p : σ × List (RegularExpression α))
    (table : List (σ × List (RegularExpression α))) : Bool :=
  table.any fun q => bif (key q.1).beq (key p.1) then decide (q = p) else false

@[simp] theorem inTable_eq_true {key : σ → Nat}
    {table : List (σ × List (RegularExpression α))} :
    inTable key p table = true ↔ p ∈ table := by
  simp only [inTable, List.any_eq_true]
  constructor
  · rintro ⟨q, hq, h⟩
    cases hkey : (key q.1).beq (key p.1) with
    | false => simp [hkey] at h
    | true =>
      rw [hkey, cond_true] at h
      exact of_decide_eq_true h ▸ hq
  · intro h
    exact ⟨p, h, by simp⟩

/-- All pairs that a list of pairs leads to, if the fuel suffices and the automaton agrees with
the expressions in all of them. -/
def explore (key : σ → Nat) (step : σ → α → Option σ) (final : σ → Bool) (letters : List α) :
    Nat → List (σ × List (RegularExpression α)) → List (σ × List (RegularExpression α)) →
      Option (List (σ × List (RegularExpression α)))
  | _, [], seen => some seen
  | 0, _ :: _, _ => none
  | fuel + 1, p :: todo, seen =>
      bif inTable key p seen then explore key step final letters fuel todo seen
      else bif agreesAt step final letters p then
        explore key step final letters fuel (successors step letters p ++ todo) (p :: seen)
      else none

/-- What an exploration finds contains what it started from, and is closed. -/
theorem explore_spec {key : σ → Nat} {fuel : Nat}
    {todo seen table : List (σ × List (RegularExpression α))}
    (hseen : ∀ p ∈ seen, Follows step final letters (seen ++ todo) p)
    (h : explore key step final letters fuel todo seen = some table) :
    (∀ p, p ∈ seen ∨ p ∈ todo → p ∈ table) ∧
      ∀ p ∈ table, Follows step final letters table p := by
  fun_induction explore key step final letters fuel todo seen with
  | case1 _ seen =>
    obtain rfl := Option.some.inj h
    exact ⟨fun p hp => hp.elim id fun h => absurd h List.not_mem_nil, by simpa using hseen⟩
  | case2 => cases h
  | case3 fuel p todo seen hin ih =>
    -- the pair has been seen
    have hrest {q : σ × List (RegularExpression α)} (hq : q ∈ seen ∨ q ∈ p :: todo) :
        q ∈ seen ∨ q ∈ todo := by
      rcases hq with hq | hq
      · exact Or.inl hq
      · rcases List.mem_cons.mp hq with rfl | hq
        · exact Or.inl (inTable_eq_true.mp hin)
        · exact Or.inr hq
    obtain ⟨hsub, hclosed⟩ := ih (fun q hq => ⟨(hseen q hq).agrees, fun q' hq' =>
      List.mem_append.mpr (hrest (List.mem_append.mp ((hseen q hq).successors q' hq')))⟩) h
    exact ⟨fun q hq => hsub q (hrest hq), hclosed⟩
  | case4 fuel p todo seen _ hagrees ih =>
    -- the pair is new, and what it leads to is still to do
    have hgrown {q : σ × List (RegularExpression α)} (hq : q ∈ seen ++ p :: todo) :
        q ∈ p :: seen ++ (successors step letters p ++ todo) := by
      simp only [List.mem_append, List.mem_cons] at hq ⊢
      tauto
    obtain ⟨hsub, hclosed⟩ := ih (fun q hq => by
      rcases List.mem_cons.mp hq with rfl | hq
      · exact ⟨hagrees, fun q' hq' => List.mem_append_right _ (List.mem_append_left _ hq')⟩
      · exact ⟨(hseen q hq).agrees, fun q' hq' => hgrown ((hseen q hq).successors q' hq')⟩) h
    exact ⟨fun q hq => hsub q (List.mem_append.mp (hgrown (List.mem_append.mpr hq))), hclosed⟩
  | case5 => cases h

/-- The table of an exploration that came to its end. -/
def Table.ofExplore {key : σ → Nat} {fuel : Nat}
    (h : (explore key step final letters fuel [(q, [r])] []).isSome = true) :
    Table step final letters q r where
  rows := (explore key step final letters fuel [(q, [r])] []).get h
  start := (explore_spec (by simp) (Option.some_get h).symm).1 _ (Or.inr List.mem_cons_self)
  closed := (explore_spec (by simp) (Option.some_get h).symm).2

end Explore

end Derivatives

/-! ## Expressions that match something -/

/-- The expression matches some word. -/
def matchesSome : RegularExpression α → Bool
  | .zero => false
  | .epsilon => true
  | .char _ => true
  | .plus r s => matchesSome r || matchesSome s
  | .comp r s => matchesSome r && matchesSome s
  | .star _ => true

theorem exists_mem_of_matchesSome (h : matchesSome r = true) : ∃ w, w ∈ r.matches' := by
  induction r with
  | zero => exact absurd h (by simp [matchesSome])
  | epsilon => exact ⟨[], rfl⟩
  | char a => exact ⟨[a], rfl⟩
  | plus r s ihr ihs =>
    rcases Bool.or_eq_true _ _ ▸ h with h | h
    · obtain ⟨w, hw⟩ := ihr h
      exact ⟨w, Or.inl hw⟩
    · obtain ⟨w, hw⟩ := ihs h
      exact ⟨w, Or.inr hw⟩
  | comp r s ihr ihs =>
    obtain ⟨hr, hs⟩ := Bool.and_eq_true _ _ ▸ h
    obtain ⟨v, hv⟩ := ihr hr
    obtain ⟨w, hw⟩ := ihs hs
    exact ⟨v ++ w, Language.append_mem_mul hv hw⟩
  | star r => exact ⟨[], Language.nil_mem_kstar _⟩

end Rubyk.Lib
