/-
  `Lib.Runs`: finite runs of a labelled step relation.

  A system is a relation `Step : σ → α → σ → Prop` between a state, an action and
  the next state.  A run is built at its END (`snoc`), so that an induction over
  a run looks at the last action with the whole history already behind it: that
  is the shape every invariant proof of this development has.

  Nothing here is about a particular program.
-/
import Mathlib.Data.List.Induction
import Mathlib.Data.List.Infix
import Mathlib.Tactic.TypeStar

set_option autoImplicit false

namespace Rubyk.Lib

variable {σ α ε : Type*}

/-- `Run Step s as t`: the actions `as`, in order, lead from `s` to `t`. -/
inductive Run (Step : σ → α → σ → Prop) (s : σ) : List α → σ → Prop
  | nil : Run Step s [] s
  | snoc {as : List α} {t : σ} {a : α} {u : σ} :
      Run Step s as t → Step t a u → Run Step s (as ++ [a]) u

namespace Run

variable {Step : σ → α → σ → Prop} {s t u : σ} {as bs : List α} {a : α}

/-- What holds at the start and is kept by every step holds at the end. -/
theorem invariant (P : σ → Prop) (hstep : ∀ t a u, P t → Step t a u → P u)
    (hs : P s) (h : Run Step s as t) : P t := by
  induction h with
  | nil => exact hs
  | snoc _ hlast ih => exact hstep _ _ _ ih hlast

theorem one (h : Step s a t) : Run Step s [a] t := Run.snoc .nil h

theorem append (h₁ : Run Step s as t) (h₂ : Run Step t bs u) :
    Run Step s (as ++ bs) u := by
  induction h₂ with
  | nil => simpa using h₁
  | snoc _ hlast ih =>
    rw [← List.append_assoc]
    exact ih.snoc hlast

theorem cons (h : Step s a t) (hrest : Run Step t as u) : Run Step s (a :: as) u :=
  (one h).append hrest

/-- A run splits at every cut point of its actions. -/
theorem split (as : List α) : ∀ {bs : List α} {u : σ}, Run Step s (as ++ bs) u →
    ∃ t, Run Step s as t ∧ Run Step t bs u := by
  intro bs
  induction bs using List.reverseRecOn with
  | nil => intro u h; exact ⟨u, by simpa using h, .nil⟩
  | append_singleton bs b ih =>
    intro u h
    rw [← List.append_assoc] at h
    generalize hall : as ++ bs ++ [b] = all at h
    cases h with
    | nil => simp at hall
    | @snoc cs t c _ hinit hlast =>
      obtain ⟨hcs, hc⟩ := List.append_inj' hall rfl
      obtain rfl : b = c := by simpa using hc
      subst hcs
      obtain ⟨v, hfirst, hsecond⟩ := ih hinit
      exact ⟨v, hfirst, hsecond.snoc hlast⟩

/-- A run of one action is a step. -/
theorem single (h : Run Step s [a] t) : Step s a t := by
  generalize hall : [a] = as at h
  cases h with
  | nil => simp at hall
  | @snoc cs u b _ hinit hlast =>
    obtain ⟨rfl, hb⟩ := List.append_inj' (show [] ++ [a] = cs ++ [b] from hall) rfl
    obtain rfl : a = b := by simpa using hb
    generalize hnil : ([] : List α) = ds at hinit
    cases hinit with
    | nil => exact hlast
    | snoc => simp at hnil

end Run

/-! ## What holds all along a run -/

/-- `P` holds in every state that a run along the actions `as` goes through. -/
def Throughout (Step : σ → α → σ → Prop) (s : σ) (as : List α) (P : σ → Prop) : Prop :=
  ∀ bs t, bs <+: as → Run Step s bs t → P t

/-- `Q` holds of every step that a run along the actions `as` makes. -/
def EveryStep (Step : σ → α → σ → Prop) (s : σ) (as : List α) (Q : σ → α → Prop) : Prop :=
  ∀ bs t a u, bs ++ [a] <+: as → Run Step s bs t → Step t a u → Q t a

/-- A property kept by every step between two states where `P` holds, along a run
where `P` holds throughout. -/
theorem Run.invariant_along {Step : σ → α → σ → Prop} {s t : σ} {as : List α}
    {P Q : σ → Prop} (h : Run Step s as t) (hP : Throughout Step s as P) (hs : Q s)
    (hstep : ∀ t a u, Q t → P t → P u → Step t a u → Q u) : Q t := by
  induction h with
  | nil => exact hs
  | @snoc bs t a u hinit hlast ih =>
    have hle : bs <+: bs ++ [a] := List.prefix_append bs [a]
    have hmid : Q t := ih fun cs v hcs hrun => hP cs v (hcs.trans hle) hrun
    exact hstep t a u hmid (hP bs t hle hinit)
      (hP (bs ++ [a]) u (List.prefix_refl _) (hinit.snoc hlast)) hlast

/-- What holds at the start and is kept by every step that meets the condition `Q`
holds throughout a run whose steps all meet it. -/
theorem EveryStep.throughout {Step : σ → α → σ → Prop} {s : σ} {as : List α} {P : σ → Prop}
    {Q : σ → α → Prop} (h : EveryStep Step s as Q)
    (hstep : ∀ t a u, P t → Q t a → Step t a u → P u) (hs : P s) : Throughout Step s as P := by
  intro bs t hle hrun
  induction hrun with
  | nil => exact hs
  | @snoc cs t a u hinit hlast ih =>
    have hmid : P t := ih ((List.prefix_append cs [a]).trans hle)
    exact hstep t a u hmid (h cs t a u hle hinit hlast) hlast

/-- If, under an invariant, a step keeps `P` exactly when it meets the condition
`Q`, then `P` holds throughout a run exactly when each of its steps meets `Q`. -/
theorem throughout_iff {Step : σ → α → σ → Prop} {s : σ} {Inv P : σ → Prop}
    {Q : σ → α → Prop} (hinv : ∀ t a u, Inv t → Step t a u → Inv u)
    (hstep : ∀ t a u, Inv t → P t → Step t a u → (P u ↔ Q t a))
    (hs : Inv s) (hP : P s) (as : List α) :
    Throughout Step s as P ↔ EveryStep Step s as Q := by
  constructor
  · intro h bs t a u hle hrun hlast
    have hmid : P t := h bs t ((List.prefix_append bs [a]).trans hle) hrun
    have hend : P u := h (bs ++ [a]) u hle (hrun.snoc hlast)
    exact (hstep t a u (hrun.invariant Inv hinv hs) hmid hlast).mp hend
  · intro h bs t hle hrun
    induction hrun with
    | nil => exact hP
    | @snoc cs t a u hinit hlast ih =>
      have hmid : P t := ih ((List.prefix_append cs [a]).trans hle)
      have hq : Q t a := h cs t a u hle hinit hlast
      exact (hstep t a u (hinit.invariant Inv hinv hs) hmid hlast).mpr hq

/-- If a step keeps `P` and meets the condition `Q`, or loses `P` for good, then the
run ends with `P` exactly when each of its steps meets `Q`. -/
theorem Run.holds_iff {Step : σ → α → σ → Prop} {s t : σ} {as : List α} {Inv P : σ → Prop}
    {Q : σ → α → Prop} (hfun : ∀ t a u v, Step t a u → Step t a v → u = v)
    (hinv : ∀ t a u, Inv t → Step t a u → Inv u)
    (hstep : ∀ t a u, Inv t → Step t a u → (P u ↔ P t ∧ Q t a))
    (hs : Inv s) (hP : P s) (h : Run Step s as t) : P t ↔ EveryStep Step s as Q := by
  have hunique : ∀ {bs : List α} {t u : σ}, Run Step s bs t → Run Step s bs u → t = u := by
    intro bs t u ht
    induction ht generalizing u with
    | nil =>
      intro hu
      generalize hnil : ([] : List α) = cs at hu
      cases hu with
      | nil => rfl
      | snoc => simp at hnil
    | @snoc cs t a v _ hlast ih =>
      intro hu
      generalize hall : cs ++ [a] = ds at hu
      cases hu with
      | nil => simp at hall
      | snoc hinit hlast' =>
        obtain ⟨rfl, ha⟩ := List.append_inj' hall rfl
        obtain rfl := List.cons.inj ha |>.1
        obtain rfl := ih hinit
        exact hfun _ _ _ _ hlast hlast'
  induction h with
  | nil =>
    refine iff_of_true hP fun bs t a u hle => ?_
    simp at hle
  | @snoc bs t a u hinit hlast ih =>
    have hlast_iff := hstep t a u (hinit.invariant Inv hinv hs) hlast
    constructor
    · intro hu cs t' b u' hle hrun hlast'
      obtain ⟨ht, hq⟩ := hlast_iff.mp hu
      rcases List.prefix_concat_iff.mp hle with heq | hle
      · obtain ⟨rfl, hb⟩ := List.append_inj' heq rfl
        obtain rfl := List.cons.inj hb |>.1
        rwa [hunique hrun hinit]
      · exact ih.mp ht cs t' b u' hle hrun hlast'
    · intro hall
      refine hlast_iff.mpr ⟨ih.mpr fun cs t' b u' hle => ?_, ?_⟩
      · exact hall cs t' b u' (hle.trans (List.prefix_append bs [a]))
      · exact hall bs t a u (List.prefix_refl _) hinit hlast

/-! ## Machines given by a step function -/

section Bind

variable {ε σ τ : Type}

@[simp] theorem pure_eq_ok (s : σ) : (pure s : Except ε σ) = .ok s := rfl

@[simp] theorem ok_bind (s : σ) (f : σ → Except ε τ) : (Except.ok s >>= f) = f s := rfl

@[simp] theorem error_bind (e : ε) (f : σ → Except ε τ) :
    ((Except.error e : Except ε σ) >>= f) = .error e := rfl

/-- What a computation that succeeds did first. -/
theorem exists_of_bind_eq_ok {x : Except ε σ} {f : σ → Except ε τ} {t : τ}
    (h : x >>= f = .ok t) : ∃ s, x = .ok s ∧ f s = .ok t := by
  cases x with
  | error e => cases h
  | ok s => exact ⟨s, rfl, h⟩

theorem exists_of_map_eq_ok {x : Except ε σ} {f : σ → τ} {t : τ} (h : x.map f = .ok t) :
    ∃ s, x = .ok s ∧ f s = t := by
  cases x with
  | error e => cases h
  | ok s => exact ⟨s, rfl, Except.ok.inj h⟩

end Bind

/-- The step relation of a fallible step function. -/
def StepOf (step : σ → α → Except ε σ) (s : σ) (a : α) (t : σ) : Prop :=
  step s a = .ok t

/-- Folding the step function over the actions is a run. -/
theorem Run.of_foldlM {step : σ → α → Except ε σ} :
    ∀ {as : List α} {s t : σ}, as.foldlM step s = .ok t → Run (StepOf step) s as t := by
  intro as
  induction as with
  | nil =>
    intro s t h
    cases h
    exact .nil
  | cons a as ih =>
    intro s t h
    rw [List.foldlM_cons] at h
    cases hstep : step s a with
    | error e => rw [hstep] at h; cases h
    | ok u =>
      rw [hstep] at h
      exact Run.cons hstep (ih h)

/-- A run of a step function ends where folding it ends: runs are deterministic. -/
theorem Run.foldlM_eq {step : σ → α → Except ε σ} {as : List α} {s t : σ}
    (h : Run (StepOf step) s as t) : as.foldlM step s = .ok t := by
  induction h with
  | nil => rfl
  | snoc _ hlast ih =>
    rw [List.foldlM_append, ih]
    simp only [List.foldlM_cons, List.foldlM_nil, bind_pure]
    exact hlast

theorem EveryStep.nil {Step : σ → α → σ → Prop} {s : σ} {Q : σ → α → Prop} :
    EveryStep Step s [] Q := by
  intro bs t a u hle
  simp at hle

/-- The steps of a run of a step function are its first one and those of the rest. -/
theorem EveryStep.cons {step : σ → α → Except ε σ} {s t : σ} {a : α} {as : List α}
    {Q : σ → α → Prop} (h : step s a = .ok t) (hq : Q s a)
    (hrest : EveryStep (StepOf step) t as Q) : EveryStep (StepOf step) s (a :: as) Q := by
  intro bs t' b u hle hrun hlast
  cases bs with
  | nil =>
    obtain rfl : b = a := (List.cons_prefix_cons.mp hle).1
    obtain rfl : t' = s := (Except.ok.inj hrun.foldlM_eq).symm
    exact hq
  | cons c cs =>
    obtain ⟨rfl, hrestle⟩ := List.cons_prefix_cons.mp hle
    obtain ⟨v, hfirst, hrun⟩ := Run.split [c] hrun
    have hv : step s c = .ok v := by simpa using hfirst.foldlM_eq
    obtain rfl := Except.ok.inj (h.symm.trans hv)
    exact hrest cs t' b u hrestle hrun hlast

/-! ## Runs that stay defined -/

/-- Every step along the actions is defined and leads to a state where `P` holds. -/
def Safe (step : σ → α → Except ε σ) (P : σ → Prop) : σ → List α → Prop
  | _, [] => True
  | s, a :: as => ∃ t, step s a = .ok t ∧ P t ∧ Safe step P t as

/-- Every step along the actions meets the condition `Q`, as long as they are defined. -/
def Meets (step : σ → α → Except ε σ) (Q : σ → α → Prop) : σ → List α → Prop
  | _, [] => True
  | s, a :: as => Q s a ∧ ∀ t, step s a = .ok t → Meets step Q t as

/-- If, under an invariant, a step is defined and leads to `P` exactly when it meets the
condition `Q`, then so do the steps of a run. -/
theorem safe_iff_meets {step : σ → α → Except ε σ} {Inv P : σ → Prop} {Q : σ → α → Prop}
    (hstep : ∀ s a, Inv s → ((∃ t, step s a = .ok t ∧ P t) ↔ Q s a))
    (hinv : ∀ s a t, Inv s → step s a = .ok t → P t → Inv t) {s : σ} (hs : Inv s)
    (as : List α) : Safe step P s as ↔ Meets step Q s as := by
  induction as generalizing s with
  | nil => exact Iff.rfl
  | cons a as ih =>
    constructor
    · rintro ⟨t, ht, hP, hrest⟩
      refine ⟨(hstep s a hs).mp ⟨t, ht, hP⟩, fun u hu => ?_⟩
      obtain rfl := Except.ok.inj (ht.symm.trans hu)
      exact (ih (hinv s a t hs ht hP)).mp hrest
    · rintro ⟨hQ, hrest⟩
      obtain ⟨t, ht, hP⟩ := (hstep s a hs).mpr hQ
      exact ⟨t, ht, hP, (ih (hinv s a t hs ht hP)).mpr (hrest t ht)⟩

/-- Two conditions that say the same of a step, under an invariant that the steps which meet them
keep, say the same of a run. -/
theorem meets_iff_meets {step : σ → α → Except ε σ} {Inv : σ → Prop} {Q Q' : σ → α → Prop}
    (hiff : ∀ s a, Inv s → (Q s a ↔ Q' s a))
    (hinv : ∀ s a t, Inv s → Q s a → step s a = .ok t → Inv t) {s : σ} (hs : Inv s)
    (as : List α) : Meets step Q s as ↔ Meets step Q' s as := by
  induction as generalizing s with
  | nil => exact Iff.rfl
  | cons a as ih =>
    constructor
    · rintro ⟨hq, hrest⟩
      exact ⟨(hiff s a hs).mp hq, fun t ht => (ih (hinv s a t hs hq ht)).mp (hrest t ht)⟩
    · rintro ⟨hq', hrest⟩
      have hq := (hiff s a hs).mpr hq'
      exact ⟨hq, fun t ht => (ih (hinv s a t hs hq ht)).mpr (hrest t ht)⟩

end Rubyk.Lib
