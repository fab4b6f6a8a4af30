/-
  Core/OrderedListRuns.lean --- an `OrderedList<T*>` and the elements it points to.

  The list keeps pointers, and compares what they point to.  The elements belong to
  the caller, who may change them at any time, but has to call `sort` before the next
  `push` (`Allowed`).  Over every such run of `push`, `remove`, `pop` and `sort` the
  containers hold a list without duplicates of what was pushed and not removed, and
  that list is ascending unless an element has changed (`stable_sorted_set`).

  The `log` and `changed` are not in the source: they say what has happened.
-/
import Rubyk.Core.OrderedListCells

set_option autoImplicit false

namespace Rubyk.OrderedList

open Lib

variable {α κ : Type}

/-- An `operator>=` that is a total preorder. -/
structure Comparison (κ : Type) where
  ge : κ → κ → Bool
  total : ∀ a b, ge a b = false → ge b a = true
  trans : ∀ a b c, ge a b = true → ge b c = true → ge a c = true

/-- What has happened to an object. -/
inductive ListEvent (α : Type) where
  | pushed (object : α)
  | removed (object : α)
  deriving DecidableEq, Repr

/-- What a caller can do; `new` gets its address from the memory manager. -/
inductive ListAction (α κ : Type) where
  | push (a : Addr) (object : α)
  | remove (object : α)
  | pop
  | sort (a : Addr)
  | change (value : α → κ)

/-- A list and the elements that pointers lead to. -/
structure ListState (α κ : Type) where
  containers : Containers α
  value : α → κ
  /-- an element has changed since the last `sort` -/
  changed : Bool
  log : List (ListEvent α)

/-- The object was pushed, and was not removed since. -/
def Held (log : List (ListEvent α)) (x : α) : Prop :=
  ∃ before after, log = before ++ .pushed x :: after ∧ .removed x ∉ after

/-- Ascending for an `operator>=`. -/
def AscendingBy (ge : α → α → Bool) (l : List α) : Prop := l.Pairwise fun a b => ge b a = true

namespace ListState

variable {c : Comparison κ} {s t : ListState α κ}

/-- `*a >= *b`. -/
def ge (c : Comparison κ) (s : ListState α κ) (a b : α) : Bool := c.ge (s.value a) (s.value b)

/-- Both elements are `>=` each other. -/
def sameKey (c : Comparison κ) (s : ListState α κ) (a b : α) : Bool :=
  s.ge c a b && s.ge c b a

/-- An empty list. -/
def start (a : Addr) (value : α → κ) : ListState α κ :=
  { containers := .init a, value := value, changed := false, log := [] }

/-- `new` returns memory that is free, and `push` is for lists that are in order. -/
def Allowed (s : ListState α κ) : ListAction α κ → Prop
  | .push a _ => s.containers.memory a = none ∧ s.changed = false
  | .sort a => s.containers.memory a = none
  | _ => True

section Steps

variable [DecidableEq α]

/-- One action. -/
def step (c : Comparison κ) (s : ListState α κ) :
    ListAction α κ → Except CellFault (ListState α κ)
  | .push a object => do
      let containers ← s.containers.push (s.ge c) a object
      pure { s with containers := containers, log := s.log ++ [.pushed object] }
  | .remove object => do
      let (_, containers) ← s.containers.remove object
      pure { s with containers := containers, log := s.log ++ [.removed object] }
  | .pop => do
      let first ← s.containers.objectBehind s.containers.linkedList
      let containers ← s.containers.pop
      pure { s with
        containers := containers
        log := s.log ++ (first.map fun p => ListEvent.removed p.2).toList }
  | .sort a => do
      let containers ← s.containers.sort (s.ge c) a
      pure { s with containers := containers, changed := false }
  | .change value => pure { s with value := value, changed := true }

/-- The step relation of the caller. -/
def Step (c : Comparison κ) (s : ListState α κ) (action : ListAction α κ)
    (t : ListState α κ) : Prop :=
  s.Allowed action ∧ s.step c action = .ok t

/-- The containers hold the list `l`: each object that was pushed and not removed once, and
in order unless an element has changed. -/
structure Represents (c : Comparison κ) (s : ListState α κ) (l : List α) : Prop where
  holds : ∃ cells, s.containers.Holds cells ∧ Containers.objects cells = l
  nodup : l.Nodup
  held : ∀ x, x ∈ l ↔ Held s.log x
  ascending : s.changed = false → AscendingBy (s.ge c) l

/-- What an action does to the list. -/
def Effect (c : Comparison κ) (s t : ListState α κ) (l l' : List α) : ListAction α κ → Prop
  | .push _ x =>
      AscendingBy (s.ge c) l' ∧
      ((x ∈ l ∧ l' = l) ∨
        x ∉ l ∧ ∃ front back, l = front ++ back ∧ l' = front ++ x :: back ∧
          (∀ y ∈ front, s.ge c x y = true) ∧ ∀ y ∈ back, s.ge c x y = false)
  | .remove x => l' = l.erase x ∧ (x ∉ l → t.containers = s.containers)
  | .pop => l' = l.tail
  | .sort _ =>
      l'.Perm l ∧ AscendingBy (s.ge c) l' ∧
      ∀ x, l'.filter (s.sameKey c x) = l.filter (s.sameKey c x)
  | .change _ => l' = l

end Steps

end ListState

/-! ## What was pushed and not removed -/

section Log

variable {log : List (ListEvent α)} {x y : α}

theorem held_nil : ¬ Held ([] : List (ListEvent α)) x := by
  rintro ⟨before, after, heq, -⟩
  simp at heq

/-- The last event decides, or the ones before it. -/
theorem held_concat {e : ListEvent α} :
    Held (log ++ [e]) x ↔ e = .pushed x ∨ (Held log x ∧ e ≠ .removed x) := by
  constructor
  · rintro ⟨before, after, heq, hout⟩
    rcases List.eq_nil_or_concat after with rfl | ⟨after, last, rfl⟩
    · left
      exact (List.append_singleton_inj.mp heq).2
    · right
      have hcut : log ++ [e] = (before ++ .pushed x :: after) ++ [last] := by
        rw [heq]
        simp
      obtain ⟨hlog, rfl⟩ := List.append_singleton_inj.mp hcut
      simp only [List.concat_eq_append, List.mem_append, List.mem_singleton, not_or] at hout
      exact ⟨⟨before, after, hlog, hout.1⟩, Ne.symm hout.2⟩
  · rintro (rfl | ⟨⟨before, after, rfl, hout⟩, hne⟩)
    · exact ⟨log, [], rfl, by simp⟩
    · refine ⟨before, after ++ [e], by simp, ?_⟩
      simp [hout, Ne.symm hne]

theorem held_pushed : Held (log ++ [.pushed y]) x ↔ x = y ∨ Held log x := by
  rw [held_concat]
  simp [eq_comm]

theorem held_removed : Held (log ++ [.removed y]) x ↔ x ≠ y ∧ Held log x := by
  rw [held_concat]
  simp [and_comm, eq_comm]

end Log

/-! ## Each action -/

namespace ListState

variable {c : Comparison κ} {s t : ListState α κ} {l : List α} {a : Addr} {x : α}

theorem ge_trans (c : Comparison κ) (s : ListState α κ) (a b d : α) :
    s.ge c a b = true → s.ge c b d = true → s.ge c a d = true :=
  c.trans _ _ _

theorem ge_total (c : Comparison κ) (s : ListState α κ) (a b : α) :
    s.ge c a b = false → s.ge c b a = true :=
  c.total _ _

/-- Elements with the key of one element are `>=` each other. -/
theorem ge_of_sameKey {a b : α} (ha : s.sameKey c x a = true) (hb : s.sameKey c x b = true) :
    s.ge c a b = true := by
  simp only [sameKey, Bool.and_eq_true] at ha hb
  exact ge_trans c s a x b ha.2 hb.1

theorem insertContainer_ascendingBy (hl : AscendingBy (s.ge c) l) :
    AscendingBy (s.ge c) (insertContainer (s.ge c) x l) := by
  refine insertContainer_pairwise (fun _ _ hge => hge) (fun y _ hge => ?_) hl
  have hyx := ge_total c s x y hge
  exact ⟨hyx, fun z _ hyz => ge_trans c s z y x hyz hyx⟩

theorem start_represents (a : Addr) (value : α → κ) : (start a value).Represents c [] where
  holds := ⟨[], Containers.init_holds a, rfl⟩
  nodup := List.nodup_nil
  held := fun _ => iff_of_false List.not_mem_nil held_nil
  ascending := fun _ => List.Pairwise.nil

variable [DecidableEq α]

theorem step_push (h : s.Represents c l) (hallowed : s.Allowed (.push a x)) :
    ∃ t l', s.step c (.push a x) = .ok t ∧ t.Represents c l' ∧ Effect c s t l l' (.push a x) := by
  obtain ⟨⟨cells, hholds, rfl⟩, hnodup, hheld, hascending⟩ := h
  obtain ⟨hfree, hchanged⟩ := hallowed
  obtain ⟨s', cells', hpush, hholds', hobjects⟩ :=
    Containers.push_refines x (s.ge c) hholds (hholds.fresh hfree)
  have hsorted := hascending hchanged
  have hsorted' : AscendingBy (s.ge c) (push (s.ge c) x (Containers.objects cells)) := by
    by_cases hmem : x ∈ Containers.objects cells
    · rwa [push_of_mem hmem]
    · rw [push_of_not_mem hmem]
      exact insertContainer_ascendingBy hsorted
  refine ⟨{ s with containers := s', log := s.log ++ [.pushed x] },
    push (s.ge c) x (Containers.objects cells), by simp [step, hpush], ?_, hsorted', ?_⟩
  · refine ⟨⟨cells', hholds', hobjects⟩, push_nodup hnodup, fun y => ?_, fun _ => hsorted'⟩
    rw [mem_push, held_pushed, hheld y]
  · by_cases hmem : x ∈ Containers.objects cells
    · exact .inl ⟨hmem, push_of_mem hmem⟩
    · rw [push_of_not_mem hmem]
      exact .inr ⟨hmem, insertContainer_split (ge_trans c s) x hsorted⟩

theorem step_remove (h : s.Represents c l) (x : α) :
    ∃ t l', s.step c (.remove x) = .ok t ∧ t.Represents c l' ∧ Effect c s t l l' (.remove x) := by
  obtain ⟨⟨cells, hholds, rfl⟩, hnodup, hheld, hascending⟩ := h
  obtain ⟨r, s', cells', hremove, hholds', hsame, hobjects, -⟩ :=
    Containers.remove_refines hholds x
  rw [remove_snd] at hobjects
  refine ⟨{ s with containers := s', log := s.log ++ [.removed x] },
    (Containers.objects cells).erase x, by simp [step, hremove], ?_, rfl, hsame⟩
  refine ⟨⟨cells', hholds', hobjects⟩, hnodup.erase x, fun y => ?_, fun hchanged => ?_⟩
  · rw [hnodup.mem_erase_iff, held_removed, hheld y]
  · exact (hascending hchanged).sublist List.erase_sublist

theorem step_pop (h : s.Represents c l) :
    ∃ t l', s.step c .pop = .ok t ∧ t.Represents c l' ∧ Effect c s t l l' .pop := by
  obtain ⟨⟨cells, hholds, rfl⟩, hnodup, hheld, hascending⟩ := h
  obtain ⟨s', cells', hpop, hholds', hobjects⟩ := Containers.pop_refines hholds
  have hfirst := Containers.objectBehind_linkedList hholds
  refine ⟨_, (Containers.objects cells).tail, by simp only [step, hfirst, hpop, ok_bind]; rfl,
    ⟨⟨cells', hholds', hobjects⟩, hnodup.tail, fun y => ?_, fun hchanged => ?_⟩, rfl⟩
  · cases cells with
    | nil =>
      change y ∈ [] ↔ Held (s.log ++ []) y
      rw [List.append_nil]
      exact hheld y
    | cons p cells =>
      obtain ⟨hp, -⟩ := List.nodup_cons.mp hnodup
      change y ∈ Containers.objects cells ↔ Held (s.log ++ [.removed p.2]) y
      rw [held_removed, ← hheld y, Containers.objects_cons, List.mem_cons]
      constructor
      · intro hy
        exact ⟨ne_of_mem_of_not_mem hy hp, .inr hy⟩
      · rintro ⟨hne, hy⟩
        exact hy.resolve_left hne
  · exact (hascending hchanged).sublist (List.tail_sublist _)

theorem step_sort (h : s.Represents c l) (hfree : s.containers.memory a = none) :
    ∃ t l', s.step c (.sort a) = .ok t ∧ t.Represents c l' ∧ Effect c s t l l' (.sort a) := by
  obtain ⟨⟨cells, hholds, rfl⟩, hnodup, hheld, -⟩ := h
  obtain ⟨s', cells', hsort, hholds', hobjects⟩ :=
    Containers.sort_refines (s.ge c) hholds (hholds.fresh hfree)
  have hsorted : AscendingBy (s.ge c) (sort (s.ge c) (Containers.objects cells)) :=
    sort_pairwise (fun _ _ _ _ hge => hge) (fun x _ y _ hge => ge_total c s x y hge)
      fun x _ y _ z _ hyx hzy => ge_trans c s z y x hzy hyx
  refine ⟨{ s with containers := s', changed := false },
    sort (s.ge c) (Containers.objects cells), by simp [step, hsort], ?_,
    sort_perm _ hnodup, hsorted, fun x => ?_⟩
  · exact ⟨⟨cells', hholds', hobjects⟩, sort_nodup _ _, fun y => mem_sort.trans (hheld y),
      fun _ => hsorted⟩
  · exact sort_filter (ge_total c s) (ge_trans c s) (fun _ _ => ge_of_sameKey) hnodup

/-- Every allowed action succeeds, and does to the list what it should. -/
theorem step_effect (h : s.Represents c l) (action : ListAction α κ)
    (hallowed : s.Allowed action) :
    ∃ t l', s.step c action = .ok t ∧ t.Represents c l' ∧ Effect c s t l l' action := by
  cases action with
  | push a x => exact step_push h hallowed
  | remove x => exact step_remove h x
  | pop => exact step_pop h
  | sort a => exact step_sort h hallowed
  | change value =>
    refine ⟨{ s with value := value, changed := true }, l, rfl, ?_, rfl⟩
    exact ⟨h.holds, h.nodup, h.held, fun hchanged => by simp at hchanged⟩

/-! ## Every run -/

theorem run_represents {actions : List (ListAction α κ)} {a : Addr} {value : α → κ}
    (h : Run (Step c) (start a value) actions s) : ∃ l, s.Represents c l := by
  refine h.invariant (fun s : ListState α κ => ∃ l, s.Represents c l) ?_
    ⟨[], start_represents a value⟩
  rintro s action t ⟨l, hl⟩ ⟨hallowed, hstep⟩
  obtain ⟨t', l', hstep', hl', -⟩ := step_effect hl action hallowed
  obtain rfl := Except.ok.inj (hstep.symm.trans hstep')
  exact ⟨l', hl'⟩

/-- An `OrderedList<T*>` is a stable sorted set: in every state that is reached it holds each
pointer that was pushed and not removed once, ascending unless an element has changed since
the last `sort`, and the next action has its effect on that list and nothing else. -/
theorem stable_sorted_set (c : Comparison κ) (a : Addr) (value : α → κ)
    {actions : List (ListAction α κ)} (h : Run (Step c) (start a value) actions s) :
    ∃ l, s.Represents c l ∧ ∀ action, s.Allowed action →
      ∃ t l', s.step c action = .ok t ∧ t.Represents c l' ∧ Effect c s t l l' action := by
  obtain ⟨l, hl⟩ := run_represents h
  exact ⟨l, hl, step_effect hl⟩

/-- What three elements are at first, and what they are later. -/
def tens (x : Nat) : Int := 10 * x

def hundreds (x : Nat) : Int := if x = 3 then 30 else 100 * x

/-- Integers and their `>=`. -/
def intComparison : Comparison Int where
  ge a b := decide (b ≤ a)
  total := by
    intro a b h
    have hlt := of_decide_eq_false h
    exact decide_eq_true (by omega)
  trans := by
    simp only [decide_eq_true_eq]
    omega

/-- Three elements are pushed, two of them change places with the third, and they are sorted. -/
theorem stable_sorted_set_reordered :
    ∃ s : ListState Nat Int,
      Run (Step intComparison) (start 0 tens)
        [.push 1 2, .push 2 1, .push 3 3, .change hundreds, .sort 4] s ∧
      ∃ l, s.Represents intComparison l ∧ ∀ action, s.Allowed action →
        ∃ t l', s.step intComparison action = .ok t ∧ t.Represents intComparison l' ∧
          Effect intComparison s t l l' action := by
  obtain ⟨s, hrun⟩ : ∃ s : ListState Nat Int, Run (Step intComparison) (start 0 tens)
      [.push 1 2, .push 2 1, .push 3 3, .change hundreds, .sort 4] s := by
    apply Exists.intro
    apply Run.cons ⟨⟨rfl, rfl⟩, rfl⟩
    apply Run.cons ⟨⟨rfl, rfl⟩, rfl⟩
    apply Run.cons ⟨⟨rfl, rfl⟩, rfl⟩
    apply Run.cons ⟨trivial, rfl⟩
    exact .one ⟨rfl, rfl⟩
  exact ⟨s, hrun, stable_sorted_set intComparison 0 _ hrun⟩

end ListState

end Rubyk.OrderedList
