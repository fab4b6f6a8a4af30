/-
  Core/ClassFinder.lean --- `ClassFinder` of `src/core/class_finder.h`: the declared
  classes.

  WHAT IS MODELLED.  The objects that were made are numbered in the order in which `new`
  made them; a deleted one leaves its number behind.  A class has its info and the
  methods that `declare` gives it.

  FROM OSCIT.  How an object keeps its children is `Children`; `Children.Lawful` is what
  the finder relies on.  Of a name that is taken, nothing more is asked than that
  `adopt` keeps the child that has it.

  UNDEFINED.  `declare` deletes a pointer that was never set when the class exists
  already.  There is no result then.
-/
import Mathlib.Data.List.Nodup

set_option autoImplicit false

namespace Rubyk

/-- The children of an `Object` of oscit, numbers under names. -/
structure Children (σ : Type) where
  empty : σ
  /-- all children with their names -/
  all : σ → List (String × Nat)
  /-- `child(name)` -/
  child : σ → String → Option Nat
  /-- `adopt(object)`, of an object with this name -/
  adopt : σ → String → Nat → σ
  /-- the destructor of a child -/
  remove : σ → Nat → σ

namespace Children

variable {σ : Type}

/-- What oscit promises of them. -/
structure Lawful (oscit : Children σ) : Prop where
  empty_eq : oscit.all oscit.empty = []
  mem_of_child : ∀ s name a, oscit.child s name = some a → (name, a) ∈ oscit.all s
  child_of_mem : ∀ s name a, (name, a) ∈ oscit.all s → oscit.child s name ≠ none
  adopt_keeps : ∀ s name a, oscit.all s ⊆ oscit.all (oscit.adopt s name a)
  adopt_adds : ∀ s name a, name ∉ (oscit.all s).map Prod.fst →
    (oscit.all (oscit.adopt s name a)).Perm ((name, a) :: oscit.all s)

end Children

namespace ClassFinder

/-- The type of a method, as oscit takes it. -/
inductive IOType where
  | noIo (info : String)
  | stringIo (units info : String)
  | anyIo (info : String)
  deriving DecidableEq, Repr

/-- `NewMethod(name, &NewMethod::cast_create<T>, type)`. -/
structure NewMethod where
  name : String
  creates : String
  type : IOType
  deriving DecidableEq, Repr

/-- The children of the finder. -/
inductive Child where
  | method (type : IOType)
  | class_ (type : IOType) (methods : List NewMethod)
  deriving DecidableEq, Repr

/-- `declare<T>(name, info, options)`. -/
structure Declaration where
  T : String
  name : String
  info : String
  options : String
  deriving DecidableEq, Repr

end ClassFinder

/-- `ClassFinder`. -/
structure ClassFinder (σ : Type) where
  children : σ
  objects : List (Option ClassFinder.Child)
  objectsPath : String
  deriving DecidableEq, Repr

namespace ClassFinder

variable {σ : Type}

/-- `new`. -/
def new (f : ClassFinder σ) (object : Child) : Nat × ClassFinder σ :=
  (f.objects.length, { f with objects := f.objects ++ [some object] })

/-- The object exists. -/
def Alive (f : ClassFinder σ) (a : Nat) : Prop := ∃ object, f.objects[a]? = some (some object)

/-- The method that `declare` makes. -/
def newMethod (d : Declaration) : NewMethod where
  name := "new"
  creates := d.T
  type := .anyIo ("Create a new " ++ d.name ++
    " from a given url and optional Hash of parameters (" ++ d.options ++ ").")

section Code

variable (oscit : Children σ)

/-- `adopt`, which gives back what it is given. -/
def adopt (f : ClassFinder σ) (name : String) (a : Nat) : ClassFinder σ :=
  { f with children := oscit.adopt f.children name a }

/-- The name of `LIB_URL`. -/
def libName : String := "lib"

/-- The constructor and `init`. -/
def init (objectsPath : String) : ClassFinder σ :=
  let (method, f) := (ClassFinder.mk oscit.empty [] objectsPath).new
    (.method (.stringIo "file path" "Get/set path to load objects files (*.rko)."))
  f.adopt oscit libName method

/-- `find_class`: the child, if it is a class. -/
def findClass (f : ClassFinder σ) (name : String) : Option Nat :=
  match oscit.child f.children name with
  | none => none
  | some a =>
      match f.objects[a]? with
      | some (some (.class_ _ _)) => some a
      | _ => none

/-- `delete`.  A pointer that was not set has no value. -/
def delete (f : ClassFinder σ) : Option Nat → Option (ClassFinder σ)
  | none => none
  | some a => some { f with
      children := oscit.remove f.children a
      objects := f.objects.set a none }

/-- `klass->adopt(new NewMethod(..))`. -/
def adoptMethod (f : ClassFinder σ) (klass : Nat) (method : NewMethod) : ClassFinder σ :=
  { f with objects := f.objects.modify klass fun
      | some (.class_ type methods) => some (.class_ type (methods ++ [method]))
      | object => object }

/-- `declare`. -/
def declare (f : ClassFinder σ) (d : Declaration) : Option (Nat × ClassFinder σ) := do
  let klass : Option Nat := none -- not set before it is deleted
  let f ← if (f.findClass oscit d.name).isSome then f.delete oscit klass else some f
  let (klass, f) := f.new (.class_ (.noIo d.info) [])
  let f := f.adopt oscit d.name klass
  some (klass, f.adoptMethod klass (newMethod d))

/-- The calls of `declare` that a plugin makes. -/
def declareAll : List Declaration → ClassFinder σ → Option (ClassFinder σ)
  | [], f => some f
  | d :: calls, f => do
      let (_, f) ← f.declare oscit d
      declareAll calls f

/-- `build_child`.  `load` finds in a file what its `init` declares; a file that cannot be loaded
has nothing. -/
def buildChild (f : ClassFinder σ) (load : String → Option (List Declaration))
    (className : String) : Option (Except String Nat × ClassFinder σ) :=
  let path := f.objectsPath ++ "/" ++ className ++ ".rko"
  match load path with
  | none => some (.error ("Could not load '" ++ path ++ "'."), f)
  | some calls => do
      let f ← declareAll oscit calls f
      match oscit.child f.children className with
      | some object => some (.ok object, f)
      | none => some (.error ("'" ++ path ++ "' should declare '" ++ className ++ "'."), f)

/-! ## What re-declaring should do -/

/-- A call of `declare` that made `made`.  `history` are the classes made before by their names,
the latest first. -/
structure Declared (history : List (String × Nat)) (f : ClassFinder σ) (d : Declaration)
    (made : Nat) (f' : ClassFinder σ) : Prop where
  finds : ∀ name a, ((d.name, made) :: history).lookup name = some a →
    f'.findClass oscit name = some a
  one : ∀ name ∈ ((d.name, made) :: history).map Prod.fst,
    ((oscit.all f'.children).map Prod.fst).count name = 1
  destroyed : ∀ a, (f.Alive a ∧ ¬ f'.Alive a) ↔ history.lookup d.name = some a

/-- Every call of a sequence replaces the class of its name. -/
def Replaces : List (String × Nat) → ClassFinder σ → List Declaration → Prop
  | _, _, [] => True
  | history, f, d :: calls =>
      ∃ made f', f.declare oscit d = some (made, f') ∧ Declared oscit history f d made f' ∧
        Replaces ((d.name, made) :: history) f' calls

end Code

/-! ## The invariant -/

section Invariant

variable {oscit : Children σ} {f : ClassFinder σ} {history : List (String × Nat)}
  {d : Declaration}

/-- The method of the constructor and the classes made so far are the children. -/
structure Holds (oscit : Children σ) (history : List (String × Nat)) (f : ClassFinder σ) :
    Prop where
  children : (oscit.all f.children).Perm (history ++ [(libName, 0)])
  unique : ((history ++ [(libName, 0)]).map Prod.fst).Nodup
  lib : ∃ type, f.objects[0]? = some (some (.method type))
  classes : ∀ x ∈ history, ∃ type methods, f.objects[x.2]? = some (some (.class_ type methods))

theorem holds_init (h : oscit.Lawful) (objectsPath : String) :
    Holds oscit [] (init oscit objectsPath) where
  children := by
    have hadds := h.adopt_adds oscit.empty libName 0 (by simp [h.empty_eq])
    rw [h.empty_eq] at hadds
    exact hadds
  unique := List.nodup_singleton _
  lib := ⟨_, rfl⟩
  classes := by simp

theorem child_of_findClass {name : String} {a : Nat} (h : f.findClass oscit name = some a) :
    oscit.child f.children name = some a ∧
      ∃ type methods, f.objects[a]? = some (some (.class_ type methods)) := by
  unfold findClass at h
  split at h
  · cases h
  · split at h
    · next b hchild _ type methods hobject =>
      obtain rfl : b = a := Option.some.inj h
      exact ⟨hchild, type, methods, hobject⟩
    · cases h

/-- `child` finds what is there. -/
theorem Holds.child_eq (h : oscit.Lawful) (hf : Holds oscit history f) {name : String} {a : Nat} :
    oscit.child f.children name = some a ↔ (name, a) ∈ history ++ [(libName, 0)] := by
  have hnodup : ((oscit.all f.children).map Prod.fst).Nodup :=
    (hf.children.map Prod.fst).nodup_iff.mpr hf.unique
  rw [← hf.children.mem_iff]
  refine ⟨h.mem_of_child _ _ _, fun hmem => ?_⟩
  obtain ⟨b, hb⟩ := Option.ne_none_iff_exists'.mp (h.child_of_mem _ _ _ hmem)
  have heq := List.inj_on_of_nodup_map hnodup (h.mem_of_child _ _ _ hb) hmem rfl
  rw [hb, (Prod.mk.inj heq).2]

theorem Holds.findClass_eq (h : oscit.Lawful) (hf : Holds oscit history f) {name : String}
    {a : Nat} : f.findClass oscit name = some a ↔ (name, a) ∈ history := by
  constructor
  · intro hfind
    obtain ⟨hchild, type, methods, hobject⟩ := child_of_findClass hfind
    rcases List.mem_append.mp ((hf.child_eq h).mp hchild) with hmem | hmem
    · exact hmem
    · -- the child of the constructor is no class
      obtain ⟨-, rfl⟩ := Prod.mk.inj (List.mem_singleton.mp hmem)
      obtain ⟨type', hlib⟩ := hf.lib
      rw [hlib] at hobject
      cases hobject
  · intro hmem
    obtain ⟨type, methods, hobject⟩ := hf.classes _ hmem
    unfold findClass
    rw [(hf.child_eq h).mpr (List.mem_append_left _ hmem)]
    simp only [hobject]

/-! ## One call -/

/-- No class has the name: `declare` makes one and deletes nothing. -/
theorem declare_eq (hfind : f.findClass oscit d.name = none) :
    f.declare oscit d = some (f.objects.length, { f with
      children := oscit.adopt f.children d.name f.objects.length
      objects := f.objects ++ [some (.class_ (.noIo d.info) [newMethod d])] }) := by
  have hmethod := List.modifyTailIdx_add
    (List.modifyHead fun
      | some (.class_ type methods) => some (.class_ type (methods ++ [newMethod d]))
      | object => object) 0 f.objects [some (.class_ (.noIo d.info) [])]
  simp only [declare, hfind, new, adopt, adoptMethod, Option.isSome_none, Bool.false_eq_true,
    if_false, Option.bind_eq_bind, Option.bind_some]
  exact congrArg (fun objects => some (f.objects.length, ClassFinder.mk
    (oscit.adopt f.children d.name f.objects.length) objects f.objectsPath)) hmethod

/-- A class has the name: what `declare` deletes was not set. -/
theorem declare_eq_none (hfind : (f.findClass oscit d.name).isSome = true) :
    f.declare oscit d = none := by
  rw [declare, if_pos hfind]
  rfl

/-- A new name. -/
theorem Holds.declare_new (h : oscit.Lawful) (hf : Holds oscit history f)
    (hname : d.name ∉ (history ++ [(libName, 0)]).map Prod.fst) :
    ∃ f', f.declare oscit d = some (f.objects.length, f') ∧
      Holds oscit ((d.name, f.objects.length) :: history) f' ∧
        Declared oscit history f d f.objects.length f' := by
  have hnone : f.findClass oscit d.name = none := by
    refine Option.eq_none_iff_forall_ne_some.mpr fun a ha => hname ?_
    exact List.mem_map_of_mem (List.mem_append_left _ ((hf.findClass_eq h).mp ha))
  have hall : d.name ∉ (oscit.all f.children).map Prod.fst := fun hmem =>
    hname ((hf.children.map Prod.fst).mem_iff.mp hmem)
  refine ⟨_, declare_eq hnone, ?_⟩
  generalize hf' : ({ f with
      children := oscit.adopt f.children d.name f.objects.length
      objects := f.objects ++ [some (.class_ (.noIo d.info) [newMethod d])] } : ClassFinder σ) = f'
  have hkeeps : ∀ {a : Nat} {object : Child}, f.objects[a]? = some (some object) →
      f'.objects[a]? = some (some object) := by
    intro a object hobject
    rw [← hf', List.getElem?_append_left (List.getElem?_eq_some_iff.mp hobject).1]
    exact hobject
  have hholds : Holds oscit ((d.name, f.objects.length) :: history) f' := by
    refine ⟨?_, List.nodup_cons.mpr ⟨hname, hf.unique⟩, ?_, ?_⟩
    · rw [← hf']
      exact (h.adopt_adds _ _ _ hall).trans (hf.children.cons _)
    · obtain ⟨type, hlib⟩ := hf.lib
      exact ⟨type, hkeeps hlib⟩
    · intro x hx
      rcases List.mem_cons.mp hx with rfl | hx
      · exact ⟨_, _, by rw [← hf']; exact List.getElem?_concat_length⟩
      · obtain ⟨type, methods, hobject⟩ := hf.classes x hx
        exact ⟨type, methods, hkeeps hobject⟩
  refine ⟨hholds, fun name a hlookup => ?_, fun name hmem => ?_, fun a => ?_⟩
  · obtain ⟨before, after, heq, -⟩ := List.lookup_eq_some_iff.mp hlookup
    rw [hholds.findClass_eq h, heq]
    exact List.mem_append_right _ List.mem_cons_self
  · rw [(hholds.children.map Prod.fst).count_eq]
    refine List.count_eq_one_of_mem hholds.unique ?_
    rw [List.map_append]
    exact List.mem_append_left _ hmem
  · refine iff_of_false (fun ⟨⟨object, halive⟩, hdead⟩ => hdead ⟨object, hkeeps halive⟩) ?_
    intro hlookup
    obtain ⟨before, after, heq, -⟩ := List.lookup_eq_some_iff.mp hlookup
    refine hname (List.mem_map_of_mem (a := (d.name, a)) (List.mem_append_left _ ?_))
    rw [heq]
    exact List.mem_append_right _ List.mem_cons_self

/-- A name that was declared before. -/
theorem Holds.declare_again (h : oscit.Lawful) (hf : Holds oscit history f)
    (hname : d.name ∈ history.map Prod.fst) : f.declare oscit d = none := by
  obtain ⟨⟨name, a⟩, hmem, rfl⟩ := List.mem_map.mp hname
  exact declare_eq_none (Option.isSome_iff_exists.mpr ⟨a, (hf.findClass_eq h).mpr hmem⟩)

/-- One child of a name has one number. -/
theorem eq_of_count_eq_one {l : List (String × Nat)} {name : String} {a b : Nat}
    (hone : (l.map Prod.fst).count name = 1) (ha : (name, a) ∈ l) (hb : (name, b) ∈ l) :
    a = b := by
  by_contra hne
  have hmem : (name, b) ∈ l.erase (name, a) :=
    (List.mem_erase_of_ne fun heq => hne (Prod.mk.inj heq).2.symm).mpr hb
  rw [((List.perm_cons_erase ha).map Prod.fst).count_eq, List.map_cons, List.count_cons_self]
    at hone
  have hzero : name ∉ (l.erase (name, a)).map Prod.fst :=
    List.count_eq_zero.mp (Nat.succ.inj hone)
  exact hzero (List.mem_map_of_mem (a := (name, b)) hmem)

/-- The name of the constructor's own child. -/
theorem Holds.not_declared_lib (h : oscit.Lawful) (hf : Holds oscit history f)
    (hname : d.name = libName) {made : Nat} {f' : ClassFinder σ}
    (hdeclare : f.declare oscit d = some (made, f')) : ¬ Declared oscit history f d made f' := by
  intro hdeclared
  have hnone : f.findClass oscit d.name = none := by
    refine Option.eq_none_iff_forall_ne_some.mpr fun a ha => ?_
    have hnodup := hf.unique
    rw [List.map_append, List.nodup_append'] at hnodup
    refine hnodup.2.2 (List.mem_map_of_mem ((hf.findClass_eq h).mp ha)) ?_
    rw [hname]
    exact List.mem_singleton.mpr rfl
  rw [declare_eq hnone] at hdeclare
  obtain ⟨rfl, rfl⟩ := Prod.mk.inj (Option.some.inj hdeclare)
  have hfound := hdeclared.finds d.name f.objects.length List.lookup_cons_self
  have hmade := h.mem_of_child _ _ _ (child_of_findClass hfound).1
  have hlib : (d.name, 0) ∈ oscit.all (oscit.adopt f.children d.name f.objects.length) := by
    refine h.adopt_keeps _ _ _ (hf.children.mem_iff.mpr (List.mem_append_right _ ?_))
    rw [hname]
    exact List.mem_singleton.mpr rfl
  have hzero : f.objects.length = 0 :=
    eq_of_count_eq_one (hdeclared.one d.name List.mem_cons_self) hmade hlib
  obtain ⟨type, hobject⟩ := hf.lib
  rw [List.length_eq_zero_iff.mp hzero] at hobject
  cases hobject

/-! ## Every sequence of calls -/

/-- The names of a sequence of calls are new, and each is there once. -/
def NewNames (history : List (String × Nat)) (calls : List Declaration) : Prop :=
  (calls.map Declaration.name).Nodup ∧
    List.Disjoint (calls.map Declaration.name) ((history ++ [(libName, 0)]).map Prod.fst)

theorem newNames_cons {calls : List Declaration} (a : Nat) :
    NewNames history (d :: calls) ↔
      d.name ∉ (history ++ [(libName, 0)]).map Prod.fst ∧
        NewNames ((d.name, a) :: history) calls := by
  simp only [NewNames, List.map_cons, List.nodup_cons, List.cons_append, List.disjoint_cons_left,
    List.disjoint_cons_right]
  exact ⟨fun ⟨⟨hnot, hnodup⟩, hnew, hdisjoint⟩ => ⟨hnew, hnodup, hnot, hdisjoint⟩,
    fun ⟨hnew, hnodup, hnot, hdisjoint⟩ => ⟨⟨hnot, hnodup⟩, hnew, hdisjoint⟩⟩

theorem Holds.replaces_iff (h : oscit.Lawful) (hf : Holds oscit history f)
    (calls : List Declaration) : Replaces oscit history f calls ↔ NewNames history calls := by
  induction calls generalizing history f with
  | nil => simp [Replaces, NewNames]
  | cons d calls ih =>
    rw [newNames_cons f.objects.length, Replaces]
    by_cases hname : d.name ∈ (history ++ [(libName, 0)]).map Prod.fst
    · refine iff_of_false ?_ fun hnew => hnew.1 hname
      rintro ⟨made, f', hdeclare, hdeclared, -⟩
      rw [List.map_append] at hname
      rcases List.mem_append.mp hname with hold | hlib
      · rw [hf.declare_again h hold] at hdeclare
        cases hdeclare
      · exact hf.not_declared_lib h (List.mem_singleton.mp hlib) hdeclare hdeclared
    · obtain ⟨f', hdeclare, hholds, hdeclared⟩ := hf.declare_new h hname
      rw [← ih hholds]
      constructor
      · rintro ⟨made, f'', hdeclare', -, hrest⟩
        rw [hdeclare] at hdeclare'
        obtain ⟨rfl, rfl⟩ := Prod.mk.inj (Option.some.inj hdeclare')
        exact ⟨hname, hrest⟩
      · exact fun ⟨_, hrest⟩ => ⟨_, f', hdeclare, hdeclared, hrest⟩

/-- New names are all declared. -/
theorem Holds.declareAll_eq (h : oscit.Lawful) (hf : Holds oscit history f)
    {calls : List Declaration} (hnew : NewNames history calls) :
    ∃ f' history', declareAll oscit calls f = some f' ∧ Holds oscit history' f' ∧
      history ⊆ history' ∧ ∀ d ∈ calls, d.name ∈ history'.map Prod.fst := by
  induction calls generalizing history f with
  | nil => exact ⟨f, history, rfl, hf, List.Subset.refl _, by simp⟩
  | cons d calls ih =>
    obtain ⟨hname, hrest⟩ := (newNames_cons f.objects.length).mp hnew
    obtain ⟨f₁, hdeclare, hholds, -⟩ := hf.declare_new h hname
    obtain ⟨f', history', hall, hholds', hsubset, hdeclared⟩ := ih hholds hrest
    refine ⟨f', history', ?_, hholds', fun x hx => hsubset (List.mem_cons_of_mem _ hx), ?_⟩
    · rw [declareAll, hdeclare]
      exact hall
    · intro d' hd'
      rcases List.mem_cons.mp hd' with rfl | hd'
      · exact List.mem_map_of_mem (hsubset List.mem_cons_self)
      · exact hdeclared d' hd'

/-- A plugin that declares new classes, and the class that its file is named after, gives
`build_child` that class. -/
theorem Holds.buildChild_eq (h : oscit.Lawful) (hf : Holds oscit history f)
    {load : String → Option (List Declaration)} {calls : List Declaration}
    (hload : load (f.objectsPath ++ "/" ++ d.name ++ ".rko") = some calls)
    (hnew : NewNames history calls) (hd : d ∈ calls) :
    ∃ a f', f.buildChild oscit load d.name = some (.ok a, f') ∧
      f'.findClass oscit d.name = some a := by
  obtain ⟨f', history', hall, hholds, -, hdeclared⟩ := hf.declareAll_eq h hnew
  obtain ⟨⟨name, a⟩, hmem, hname⟩ := List.mem_map.mp (hdeclared d hd)
  obtain rfl : name = d.name := hname
  refine ⟨a, f', ?_, (hholds.findClass_eq h).mpr hmem⟩
  have hchild := (hholds.child_eq h).mpr (List.mem_append_left _ hmem)
  simp only [buildChild, hload, hall, Option.bind_eq_bind, Option.bind_some, hchild]

end Invariant

/-- Every call replaces the class of its name exactly when no name is declared twice and none is
the name of the constructor's method. -/
theorem replaces_iff_nodup {oscit : Children σ} (h : oscit.Lawful) (objectsPath : String)
    (calls : List Declaration) :
    Replaces oscit [] (init oscit objectsPath) calls ↔
      (libName :: calls.map Declaration.name).Nodup := by
  rw [(holds_init h objectsPath).replaces_iff h, NewNames, List.nodup_cons, List.nil_append,
    List.map_singleton, List.disjoint_singleton]
  exact and_comm

/-! ## Children in a list -/

/-- Children that are kept in a list. -/
def listed : Children (List (String × Nat)) where
  empty := []
  all := id
  child s name := s.lookup name
  adopt s name a := (name, a) :: s
  remove s a := s.filter fun x => x.2 ≠ a

theorem listed_lawful : listed.Lawful where
  empty_eq := rfl
  mem_of_child s name a h := by
    obtain ⟨before, after, heq, -⟩ := List.lookup_eq_some_iff.mp h
    change (name, a) ∈ s
    rw [heq]
    exact List.mem_append_right _ List.mem_cons_self
  child_of_mem s name a h hnone := by
    have hne := List.lookup_eq_none_iff.mp hnone _ h
    simp at hne
  adopt_keeps s name a := List.subset_cons_self _ _
  adopt_adds s name a _ := List.Perm.refl _

/-- `Value`, as its plugin declares it. -/
def valueClass : Declaration :=
  ⟨"ValueNode", "Value", "Stores a number which can be sent again through Bang!.",
    "value: [initial value]"⟩

/-- `Metro`. -/
def metroClass : Declaration :=
  ⟨"Metro", "Metro", "Metronome that sends bangs at regular intervals.",
    "tempo: [initial tempo]"⟩

theorem replaces_iff_nodup_two :
    Replaces listed [] (init listed "/usr/local/lib/rubyk") [metroClass, valueClass] :=
  (replaces_iff_nodup listed_lawful "/usr/local/lib/rubyk" _).mpr (by decide)

/-- The second declaration of a class deletes a pointer that was not set. -/
theorem redeclared_undefined :
    ¬ Replaces listed [] (init listed "/usr/local/lib/rubyk") [valueClass, valueClass] := by
  rintro ⟨made, f, hfirst, -, made', f', hsecond, -⟩
  have htwice : ((init listed "/usr/local/lib/rubyk").declare listed valueClass).bind
      (fun first => first.2.declare listed valueClass) = none := by decide +kernel
  rw [hfirst, Option.bind_some, hsecond] at htwice
  cases htwice

end ClassFinder

end Rubyk
