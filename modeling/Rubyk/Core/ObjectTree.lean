/-
  Core/ObjectTree.lean --- the tree of objects, while it grows.

  FROM OSCIT.  `ObjectTree` is what `Object::adopt` and `Object::set_name` do to the
  answers of the tree, and how the tree reads an url.  `Lawful` is what is relied on: an
  object is found by the names that lead to it from the root, a child keeps its place
  when another one comes, and of two children with one name the second gets another.

  What several calls of `adopt` do to the tree is a list of adoptions (`adoptAll_spec`).
-/
import Mathlib.Data.List.Nodup
import Rubyk.Core.Planet

set_option autoImplicit false

namespace Rubyk

/-- The object that a list of names leads to. -/
def Root.follow (r : Root) : ObjectId → List String → Option ObjectId
  | x, [] => some x
  | x, name :: names => (r.child x name).bind fun y => r.follow y names

/-- What oscit does to its tree. -/
structure ObjectTree where
  /-- the names that an url is read as, from the root on -/
  path : String → Option (List String)
  /-- `parent->adopt(child)`, of a child that has this name -/
  adopt : Root → (parent child : ObjectId) → (name : String) → Root
  /-- `child->set_name(name)`, of a child of `parent` -/
  setName : Root → (parent child : ObjectId) → (name : String) → Root

/-- A call of `adopt`. -/
structure Adoption where
  parent : ObjectId
  name : String
  child : ObjectId
  deriving DecidableEq, Repr

namespace ObjectTree

variable {tree : ObjectTree} {planet parent child : ObjectId} {r r' : Root} {name : String}

/-- Objects are found by the names that lead to them from the planet. -/
def Finds (tree : ObjectTree) (planet : ObjectId) (r : Root) : Prop :=
  ∀ url, r.objectAt url = (tree.path url).bind (r.follow planet)

/-- The object is nobody's child. -/
structure Loose (r : Root) (c : ObjectId) : Prop where
  child : ∀ y n, r.child y n ≠ some c
  firstChild : ∀ y, r.firstChild y ≠ some c

/-- The tree has one child more. -/
structure Adopted (r r' : Root) (a : Adoption) : Prop where
  free : r.child a.parent a.name = none
  child : ∀ y n, r'.child y n =
    if y = a.parent ∧ n = a.name then some a.child else r.child y n
  firstChild : ∀ y, r'.firstChild y =
    if y = a.parent then some ((r.firstChild y).getD a.child) else r.firstChild y

/-- A child has another name; it may have moved among its siblings. -/
structure Renamed (r r' : Root) (a : Adoption) (name : String) : Prop where
  child : ∀ y n, r'.child y n =
    if y = a.parent ∧ n = name then some a.child
    else if y = a.parent ∧ n = a.name then none else r.child y n
  firstChild : ∀ y, y ≠ a.parent → r'.firstChild y = r.firstChild y
  first : ∀ z, r'.firstChild a.parent = some z →
    z = a.child ∨ r.firstChild a.parent = some z ∨ ∃ n, r.child a.parent n = some z

/-- What oscit promises. -/
structure Lawful (tree : ObjectTree) (planet : ObjectId) : Prop where
  adopt : ∀ r parent child name, tree.Finds planet r → Loose r child → child ≠ parent →
    (∃ n, r.child parent n = none) →
      ∃ used, (r.child parent name = none → used = name) ∧
        Adopted r (tree.adopt r parent child name) ⟨parent, used, child⟩ ∧
        tree.Finds planet (tree.adopt r parent child name)
  setName : ∀ r parent child used name, tree.Finds planet r →
    (∀ n, r.child parent n = some child ↔ n = used) →
    (name = used ∨ r.child parent name = none) →
      Renamed r (tree.setName r parent child name) ⟨parent, used, child⟩ name ∧
        tree.Finds planet (tree.setName r parent child name)
  path_planet : tree.path "" = some []
  path_child : ∀ url name : String, name ≠ "" → '/' ∉ name.toList →
    tree.path (url ++ "/" ++ name) = (tree.path url).map (· ++ [name])

theorem follow_append (r : Root) (x : ObjectId) (names names' : List String) :
    r.follow x (names ++ names') = (r.follow x names).bind fun y => r.follow y names' := by
  induction names generalizing x with
  | nil => rfl
  | cons name names ih =>
    rw [List.cons_append, Root.follow, Root.follow]
    cases r.child x name with
    | none => rfl
    | some y => exact ih y

/-- The url of a child. -/
theorem Finds.objectAt_child (hlaw : Lawful tree planet) (hfinds : tree.Finds planet r)
    {url : String} (hempty : name ≠ "") (hslash : '/' ∉ name.toList) :
    r.objectAt (url ++ "/" ++ name) = (r.objectAt url).bind fun x => r.child x name := by
  rw [hfinds, hfinds, hlaw.path_child url name hempty hslash]
  cases tree.path url with
  | none => rfl
  | some names =>
    simp only [Option.map_some, Option.bind_some, follow_append]
    congr 1
    funext x
    simp [Root.follow]

/-! ## Several adoptions -/

/-- One `adopt` after the other. -/
def adoptAll (tree : ObjectTree) (r : Root) (l : List Adoption) : Root :=
  l.foldl (fun r a => tree.adopt r a.parent a.child a.name) r

/-- What the tree answers after them. -/
structure AdoptedAll (r r' : Root) (l : List Adoption) : Prop where
  mem : ∀ a ∈ l, r'.child a.parent a.name = some a.child
  other : ∀ y n, (∀ a ∈ l, ¬ (a.parent = y ∧ a.name = n)) → r'.child y n = r.child y n
  firstChild : ∀ y, r'.firstChild y =
    (r.firstChild y).or ((l.find? fun a => a.parent = y).map Adoption.child)

/-- The adoptions find their names free, and their children loose. -/
structure Possible (r : Root) (l : List Adoption) : Prop where
  names : l.Pairwise fun a b => ¬ (a.parent = b.parent ∧ a.name = b.name)
  children : (l.map Adoption.child).Nodup
  free : ∀ a ∈ l, r.child a.parent a.name = none
  loose : ∀ a ∈ l, Loose r a.child
  ne : ∀ a ∈ l, a.child ≠ a.parent

theorem Adopted.loose {a : Adoption} {c : ObjectId} (h : Adopted r r' a) (hc : Loose r c)
    (hne : c ≠ a.child) : Loose r' c where
  child y n := by
    rw [h.child]
    split
    · exact fun heq => hne (Option.some.inj heq).symm
    · exact hc.child y n
  firstChild y := by
    rw [h.firstChild]
    split
    · cases hfirst : r.firstChild y with
      | none => exact fun heq => hne (Option.some.inj heq).symm
      | some z =>
        rintro heq
        exact hc.firstChild y (hfirst.trans heq)
    · exact hc.firstChild y

theorem Adopted.possible {a : Adoption} {l : List Adoption} (h : Adopted r r' a)
    (hl : Possible r (a :: l)) : Possible r' l where
  names := (List.pairwise_cons.mp hl.names).2
  children := (List.nodup_cons.mp hl.children).2
  free b hb := by
    have hother := (List.pairwise_cons.mp hl.names).1 b hb
    rw [h.child, if_neg fun heq => hother ⟨heq.1.symm, heq.2.symm⟩]
    exact hl.free b (List.mem_cons_of_mem a hb)
  loose b hb := by
    refine h.loose (hl.loose b (List.mem_cons_of_mem a hb)) fun heq => ?_
    exact (List.nodup_cons.mp hl.children).1 (heq ▸ List.mem_map_of_mem hb)
  ne b hb := hl.ne b (List.mem_cons_of_mem a hb)

theorem adoptAll_spec (hlaw : Lawful tree planet) (l : List Adoption) {r : Root}
    (hfinds : tree.Finds planet r) (hl : Possible r l) :
    AdoptedAll r (tree.adoptAll r l) l ∧ tree.Finds planet (tree.adoptAll r l) := by
  induction l generalizing r with
  | nil => exact ⟨⟨by simp, fun _ _ _ => rfl, fun y => by simp [adoptAll]⟩, hfinds⟩
  | cons a l ih =>
    have hmem : a ∈ a :: l := List.mem_cons_self
    have hfree := hl.free a hmem
    obtain ⟨used, hused, hadopted, hfinds'⟩ := hlaw.adopt r a.parent a.child a.name hfinds
      (hl.loose a hmem) (hl.ne a hmem) ⟨_, hfree⟩
    obtain rfl := hused hfree
    obtain ⟨hall, hfound⟩ := ih hfinds' (hadopted.possible hl)
    have hnames := List.pairwise_cons.mp hl.names
    refine ⟨⟨fun b hb => ?_, fun y n hnone => ?_, fun y => ?_⟩, hfound⟩
    · rcases List.mem_cons.mp hb with rfl | hb
      · have hkept := hall.other b.parent b.name fun c hc heq =>
          hnames.1 c hc ⟨heq.1.symm, heq.2.symm⟩
        rw [adoptAll, List.foldl_cons, ← adoptAll, hkept, hadopted.child, if_pos ⟨rfl, rfl⟩]
      · exact hall.mem b hb
    · have hkept := hall.other y n fun c hc => hnone c (List.mem_cons_of_mem a hc)
      rw [adoptAll, List.foldl_cons, ← adoptAll, hkept, hadopted.child,
        if_neg fun heq => hnone a hmem ⟨heq.1.symm, heq.2.symm⟩]
    · rw [adoptAll, List.foldl_cons, ← adoptAll, hall.firstChild, hadopted.firstChild,
        List.find?_cons]
      by_cases hy : a.parent = y
      · cases hfirst : r.firstChild y <;> simp [hy]
      · simp [hy, Ne.symm hy]

theorem AdoptedAll.loose {l : List Adoption} {c : ObjectId} (h : AdoptedAll r r' l)
    (hc : Loose r c) (hne : ∀ a ∈ l, a.child ≠ c) : Loose r' c where
  child y n heq := by
    by_cases ha : ∃ a ∈ l, a.parent = y ∧ a.name = n
    · obtain ⟨a, ha, rfl, rfl⟩ := ha
      rw [h.mem a ha] at heq
      exact hne a ha (Option.some.inj heq)
    · rw [h.other y n fun a hmem hplace => ha ⟨a, hmem, hplace⟩] at heq
      exact hc.child y n heq
  firstChild y heq := by
    rw [h.firstChild, Option.or_eq_some_iff] at heq
    rcases heq with heq | ⟨-, heq⟩
    · exact hc.firstChild y heq
    · obtain ⟨a, ha, heq⟩ := Option.map_eq_some_iff.mp heq
      exact hne a (List.mem_of_find?_eq_some ha) heq

/-- Names lead from an object to a child, or to the object itself. -/
theorem Loose.eq_of_follow {c : ObjectId} (hc : Loose r c) {names : List String} {x : ObjectId}
    (h : r.follow x names = some c) : x = c := by
  induction names generalizing x with
  | nil => exact Option.some.inj h
  | cons name names ih =>
    obtain ⟨y, hy, hrest⟩ := Option.bind_eq_some_iff.mp h
    exact absurd (ih hrest ▸ hy) (hc.child x name)

/-! ## A tree that keeps this promise -/

/-- The names between the slashes of an absolute url. -/
def urlPath (url : String) : Option (List String) :=
  match url.toList.splitOn '/' with
  | [] :: names => some (names.map String.ofList)
  | _ => none

/-- The tree that finds its objects by these names. -/
def reread (planet : ObjectId) (r : Root) : Root :=
  { r with objectAt := fun url => (urlPath url).bind (r.follow planet) }

/-- A child is put behind the others; where its name is taken it gets one that is free. -/
noncomputable def namedTree (planet : ObjectId) : ObjectTree where
  path := urlPath
  adopt r parent child name :=
    let used := if r.child parent name = none then name
      else Classical.epsilon fun n => r.child parent n = none
    reread planet { r with
      child := fun y n => if y = parent ∧ n = used then some child else r.child y n
      firstChild := fun y =>
        if y = parent then some ((r.firstChild y).getD child) else r.firstChild y }
  setName r parent child name :=
    reread planet { r with
      child := fun y n => if y = parent ∧ n = name then some child
        else if y = parent ∧ r.child parent n = some child then none else r.child y n }

theorem urlPath_child {url : String} (hslash : '/' ∉ name.toList) :
    urlPath (url ++ "/" ++ name) = (urlPath url).map (· ++ [name]) := by
  have hlist : (url ++ "/" ++ name).toList = url.toList ++ '/' :: name.toList := by
    simp [String.toList_append]
  unfold urlPath
  rw [hlist, List.splitOn_append_cons_self, List.splitOn_eq_singleton hslash]
  cases hnames : url.toList.splitOn '/' with
  | nil => exact absurd hnames (List.splitOn_ne_nil _ _)
  | cons first names => cases first <;> simp

theorem follow_reread (r : Root) (x : ObjectId) (names : List String) :
    (reread planet r).follow x names = r.follow x names := by
  induction names generalizing x with
  | nil => rfl
  | cons name names ih =>
    rw [Root.follow, Root.follow]
    exact Option.bind_congr fun y _ => ih y

theorem finds_reread (r : Root) : (namedTree planet).Finds planet (reread planet r) := by
  intro url
  refine Option.bind_congr fun names _ => ?_
  exact (follow_reread r planet names).symm

theorem child_adopt_namedTree {y z : ObjectId} {n : String}
    (h : ((namedTree planet).adopt r parent child name).child y n = some z) :
    y = parent ∧ z = child ∨ r.child y n = some z := by
  obtain ⟨used, hused⟩ : ∃ used, ((namedTree planet).adopt r parent child name).child y n =
      if y = parent ∧ n = used then some child else r.child y n := ⟨_, rfl⟩
  rw [hused] at h
  split at h
  · next hy => exact Or.inl ⟨hy.1, (Option.some.inj h).symm⟩
  · exact Or.inr h

theorem firstChild_adopt_namedTree {y z : ObjectId}
    (h : ((namedTree planet).adopt r parent child name).firstChild y = some z) :
    z = child ∨ r.firstChild y = some z := by
  change (ite _ _ _) = some z at h
  split at h
  · next hy =>
    subst hy
    cases hfirst : r.firstChild y with
    | none => exact Or.inl (by simpa [hfirst] using h.symm)
    | some w => exact Or.inr (by simpa [hfirst] using h)
  · exact Or.inr h

theorem lawful_namedTree (planet : ObjectId) : (namedTree planet).Lawful planet where
  adopt r parent child name _ _ _ hfree := by
    refine ⟨if r.child parent name = none then name
      else Classical.epsilon fun n => r.child parent n = none, fun h => if_pos h,
      ⟨?_, fun _ _ => rfl, fun _ => rfl⟩, finds_reread _⟩
    change r.child parent (ite _ _ _) = none
    by_cases hname : r.child parent name = none
    · rw [if_pos hname, hname]
    · rw [if_neg hname]
      exact Classical.epsilon_spec hfree
  setName r parent child used name _ hused _ := by
    refine ⟨⟨fun y n => ?_, fun _ _ => rfl, fun z hz => Or.inr (Or.inl hz)⟩, finds_reread _⟩
    change (if y = parent ∧ n = name then some child
      else if y = parent ∧ r.child parent n = some child then none else r.child y n) = _
    simp only [hused]
  path_planet := (by decide +kernel : urlPath "" = some [])
  path_child _ _ _ hslash := urlPath_child hslash

end ObjectTree

end Rubyk
