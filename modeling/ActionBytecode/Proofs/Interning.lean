/-
  ActionBytecode — constants that join a pool.

  A pool is closed (`Pool.Closed`) when each of its tables begins with the fixed entry, and the
  parts of each constant are constants of the same pool.  A constant is put at the end of its
  table, after its parts; so the constants that are there keep their indices, and a closed pool
  stays closed (`Pool.Enlarges`).
-/
import Mathlib.Data.List.Basic
import ActionBytecode.Constant.Pool

namespace ActionBytecode

/-! ## Closed pools -/

/-- The parts of a multiname are in the given tables. -/
def Multiname.MadeOf (strings : Array String) (namespaces : Array Namespace)
    (sets : Array NamespaceSet) (names : Array Multiname) : Multiname → Prop
  | .qualified _ ns name => ns ∈ namespaces ∧ name ∈ strings
  | .runtimeQualified _ name => name ∈ strings
  | .runtime _ => True
  | .ambiguous _ name set => name ∈ strings ∧ set ∈ sets
  | .late _ set => set ∈ sets
  | .applied base params => base ∈ names ∧ ∀ p ∈ params, p ∈ names

theorem Multiname.MadeOf.mono {strings strings' : Array String}
    {namespaces namespaces' : Array Namespace} {sets sets' : Array NamespaceSet}
    {names names' : Array Multiname} (hs : ∀ s ∈ strings, s ∈ strings')
    (hn : ∀ ns ∈ namespaces, ns ∈ namespaces') (hsets : ∀ set ∈ sets, set ∈ sets')
    (hnames : ∀ name ∈ names, name ∈ names') {name : Multiname}
    (h : name.MadeOf strings namespaces sets names) :
    name.MadeOf strings' namespaces' sets' names' := by
  cases name with
  | qualified attr ns name => exact ⟨hn ns h.1, hs name h.2⟩
  | runtimeQualified attr name => exact hs name h
  | runtime attr => trivial
  | ambiguous attr name set => exact ⟨hs name h.1, hsets set h.2⟩
  | late attr set => exact hsets set h
  | applied base params => exact ⟨hnames base h.1, fun p hp => hnames p (h.2 p hp)⟩

namespace Pool

/-- The fixed entries are at index 0, and the parts of every constant are in the pool. -/
structure Closed (pool : Pool) : Prop where
  int : pool.ints[0]? = some 0
  uint : pool.uints[0]? = some 0
  double : pool.doubles[0]? = some .nan
  string : pool.strings[0]? = some anyName
  global : pool.namespaces[0]? = some .global
  empty : pool.namespaceSets[0]? = some .empty
  any : pool.multinames[0]? = some .any
  names : ∀ ns ∈ pool.namespaces, ns.name ∈ pool.strings
  members : ∀ set ∈ pool.namespaceSets, ∀ ns ∈ set.members, ns ∈ pool.namespaces
  parts : ∀ name ∈ pool.multinames,
    name.MadeOf pool.strings pool.namespaces pool.namespaceSets pool.multinames

theorem closed_initial : initial.Closed where
  int := rfl
  uint := rfl
  double := rfl
  string := rfl
  global := rfl
  empty := rfl
  any := rfl
  names ns h := by
    have hns : ns = .global := by simpa [initial] using h
    subst hns
    simp [initial, Namespace.global, Namespace.ofKind]
  members set h := by
    have hset : set = .empty := by simpa [initial] using h
    subst hset
    simp [NamespaceSet.empty]
  parts name h := by
    have hname : name = .any := by simpa [initial] using h
    subst hname
    simp [initial, Multiname.any, Multiname.MadeOf]

/-! ## Growth -/

section
variable {α : Type}

/-- The later table begins with the earlier one. -/
def Begins (table later : Array α) : Prop := table.toList <+: later.toList

theorem Begins.refl (table : Array α) : Begins table table := List.prefix_refl _

theorem Begins.trans {a b c : Array α} (h : Begins a b) (h' : Begins b c) : Begins a c :=
  List.IsPrefix.trans h h'

theorem Begins.mem {table later : Array α} (h : Begins table later) {a : α} (ha : a ∈ table) :
    a ∈ later :=
  Array.mem_toList_iff.1 (h.subset (Array.mem_toList_iff.2 ha))

theorem getElem?_of_prefix {xs ys : List α} (h : xs <+: ys) {i : Nat} {a : α}
    (ha : xs[i]? = some a) : ys[i]? = some a := by
  obtain ⟨hi, rfl⟩ := List.getElem?_eq_some_iff.1 ha
  exact List.prefix_iff_getElem?.1 h i hi

theorem Begins.getElem? {table later : Array α} (h : Begins table later) {i : Nat} {a : α}
    (ha : table[i]? = some a) : later[i]? = some a := by
  rw [← Array.getElem?_toList] at ha ⊢
  exact getElem?_of_prefix h ha

variable [DecidableEq α]

theorem mem_intern {table : Array α} {value a : α} :
    a ∈ intern table value ↔ a ∈ table ∨ a = value := by
  unfold intern
  split
  · next h =>
    rw [Array.mem_toList_iff] at h
    constructor
    · exact .inl
    · rintro (ha | rfl)
      · exact ha
      · exact h
  · exact Array.mem_push

theorem begins_intern (table : Array α) (value : α) : Begins table (intern table value) := by
  unfold intern
  split
  · exact .refl table
  · rw [Begins, Array.toList_push]
    exact List.prefix_append _ _

end

/-- The constants of the earlier pool have their indices in the later one. -/
structure Extends (pool later : Pool) : Prop where
  ints : Begins pool.ints later.ints
  uints : Begins pool.uints later.uints
  doubles : Begins pool.doubles later.doubles
  strings : Begins pool.strings later.strings
  namespaces : Begins pool.namespaces later.namespaces
  namespaceSets : Begins pool.namespaceSets later.namespaceSets
  multinames : Begins pool.multinames later.multinames

theorem Extends.refl (pool : Pool) : pool.Extends pool :=
  ⟨.refl _, .refl _, .refl _, .refl _, .refl _, .refl _, .refl _⟩

theorem Extends.trans {a b c : Pool} (h : a.Extends b) (h' : b.Extends c) : a.Extends c where
  ints := h.ints.trans h'.ints
  uints := h.uints.trans h'.uints
  doubles := h.doubles.trans h'.doubles
  strings := h.strings.trans h'.strings
  namespaces := h.namespaces.trans h'.namespaces
  namespaceSets := h.namespaceSets.trans h'.namespaceSets
  multinames := h.multinames.trans h'.multinames

/-- **A closed pool stays closed when the parts of each constant that joins it are there.** -/
theorem Closed.extend {pool later : Pool} (h : pool.Closed) (he : pool.Extends later)
    (names : ∀ ns ∈ later.namespaces, ns ∈ pool.namespaces ∨ ns.name ∈ later.strings)
    (members : ∀ set ∈ later.namespaceSets, set ∈ pool.namespaceSets ∨
      ∀ ns ∈ set.members, ns ∈ later.namespaces)
    (parts : ∀ name ∈ later.multinames, name ∈ pool.multinames ∨
      name.MadeOf later.strings later.namespaces later.namespaceSets later.multinames) :
    later.Closed where
  int := he.ints.getElem? h.int
  uint := he.uints.getElem? h.uint
  double := he.doubles.getElem? h.double
  string := he.strings.getElem? h.string
  global := he.namespaces.getElem? h.global
  empty := he.namespaceSets.getElem? h.empty
  any := he.multinames.getElem? h.any
  names ns hns := by
    rcases names ns hns with hold | hnew
    · exact he.strings.mem (h.names ns hold)
    · exact hnew
  members set hset := by
    rcases members set hset with hold | hnew
    · exact fun ns hns => he.namespaces.mem (h.members set hold ns hns)
    · exact hnew
  parts name hname := by
    rcases parts name hname with hold | hnew
    · exact (h.parts name hold).mono (fun _ => he.strings.mem) (fun _ => he.namespaces.mem)
        (fun _ => he.namespaceSets.mem) fun _ => he.multinames.mem
    · exact hnew

/-- The pool has grown by constants, each after its parts. -/
structure Enlarges (pool later : Pool) : Prop extends pool.Extends later where
  closed : pool.Closed → later.Closed

theorem Enlarges.refl (pool : Pool) : pool.Enlarges pool := ⟨.refl pool, fun h => h⟩

theorem Enlarges.trans {a b c : Pool} (h : a.Enlarges b) (h' : b.Enlarges c) : a.Enlarges c :=
  ⟨h.toExtends.trans h'.toExtends, fun hc => h'.closed (h.closed hc)⟩

/-! ## Literals -/

theorem enlarges_addInt (pool : Pool) (value : Int32) : pool.Enlarges (pool.addInt value) := by
  have he : pool.Extends (pool.addInt value) :=
    { Extends.refl pool with ints := begins_intern _ _ }
  exact ⟨he, fun h => h.extend he (fun _ => .inl) (fun _ => .inl) fun _ => .inl⟩

theorem enlarges_addUint (pool : Pool) (value : UInt32) : pool.Enlarges (pool.addUint value) := by
  have he : pool.Extends (pool.addUint value) :=
    { Extends.refl pool with uints := begins_intern _ _ }
  exact ⟨he, fun h => h.extend he (fun _ => .inl) (fun _ => .inl) fun _ => .inl⟩

theorem enlarges_addDouble (pool : Pool) (value : Double) :
    pool.Enlarges (pool.addDouble value) := by
  have he : pool.Extends (pool.addDouble value) :=
    { Extends.refl pool with doubles := begins_intern _ _ }
  exact ⟨he, fun h => h.extend he (fun _ => .inl) (fun _ => .inl) fun _ => .inl⟩

theorem enlarges_addString (pool : Pool) (value : String) :
    pool.Enlarges (pool.addString value) := by
  have he : pool.Extends (pool.addString value) :=
    { Extends.refl pool with strings := begins_intern _ _ }
  exact ⟨he, fun h => h.extend he (fun _ => .inl) (fun _ => .inl) fun _ => .inl⟩

theorem mem_addString (pool : Pool) (value : String) : value ∈ (pool.addString value).strings :=
  mem_intern.2 (.inr rfl)

/-! ## Namespaces and sets -/

theorem enlarges_addNamespace (pool : Pool) (ns : Namespace) :
    pool.Enlarges (pool.addNamespace ns) := by
  refine (enlarges_addString pool ns.name).trans ?_
  have hname := mem_addString pool ns.name
  unfold addNamespace
  generalize pool.addString ns.name = named at hname
  have he : named.Extends { named with namespaces := intern named.namespaces ns } :=
    { Extends.refl named with namespaces := begins_intern _ _ }
  refine ⟨he, fun h => h.extend he (fun m hm => ?_) (fun _ => .inl) fun _ => .inl⟩
  rcases mem_intern.1 hm with hm | rfl
  · exact .inl hm
  · exact .inr hname

theorem mem_addNamespace (pool : Pool) (ns : Namespace) :
    ns ∈ (pool.addNamespace ns).namespaces :=
  mem_intern.2 (.inr rfl)

theorem enlarges_addNamespaces (members : List Namespace) :
    ∀ pool : Pool, pool.Enlarges (members.foldl addNamespace pool) ∧
      ∀ ns ∈ members, ns ∈ (members.foldl addNamespace pool).namespaces := by
  induction members with
  | nil => exact fun pool => ⟨.refl pool, by simp⟩
  | cons m ms ih =>
    intro pool
    obtain ⟨hrest, hms⟩ := ih (pool.addNamespace m)
    refine ⟨(enlarges_addNamespace pool m).trans hrest, ?_⟩
    rw [List.forall_mem_cons]
    exact ⟨hrest.namespaces.mem (mem_addNamespace pool m), hms⟩

theorem enlarges_addNamespaceSet (pool : Pool) (set : NamespaceSet) :
    pool.Enlarges (pool.addNamespaceSet set) := by
  obtain ⟨hgrown, hmembers⟩ := enlarges_addNamespaces set.members pool
  refine hgrown.trans ?_
  unfold addNamespaceSet
  generalize set.members.foldl addNamespace pool = grown at hmembers
  have he : grown.Extends { grown with namespaceSets := intern grown.namespaceSets set } :=
    { Extends.refl grown with namespaceSets := begins_intern _ _ }
  refine ⟨he, fun h => h.extend he (fun _ => .inl) (fun s hs => ?_) fun _ => .inl⟩
  rcases mem_intern.1 hs with hs | rfl
  · exact .inl hs
  · exact .inr hmembers

theorem mem_addNamespaceSet (pool : Pool) (set : NamespaceSet) :
    set ∈ (pool.addNamespaceSet set).namespaceSets :=
  mem_intern.2 (.inr rfl)

/-! ## Multinames -/

theorem mem_addMultinameEntry (pool : Pool) (name : Multiname) :
    name ∈ (pool.addMultinameEntry name).multinames :=
  mem_intern.2 (.inr rfl)

/-- A multiname may follow its parts. -/
theorem enlarges_addMultinameEntry {pool : Pool} {name : Multiname}
    (hp : name.MadeOf pool.strings pool.namespaces pool.namespaceSets pool.multinames) :
    pool.Enlarges (pool.addMultinameEntry name) := by
  have he : pool.Extends (pool.addMultinameEntry name) :=
    { Extends.refl pool with multinames := begins_intern _ _ }
  refine ⟨he, fun h => h.extend he (fun _ => .inl) (fun _ => .inl) fun n hn => ?_⟩
  rcases mem_intern.1 hn with hn | rfl
  · exact .inl hn
  · exact .inr (hp.mono (fun _ hs => hs) (fun _ hns => hns) (fun _ hset => hset)
      fun _ => he.multinames.mem)

mutual
theorem enlarges_addMultiname : ∀ (name : Multiname) (pool : Pool),
    pool.Enlarges (pool.addMultiname name) ∧ name ∈ (pool.addMultiname name).multinames
  | .qualified attr ns name, pool => by
    have h₁ := enlarges_addString pool name
    have h₂ := enlarges_addNamespace (pool.addString name) ns
    rw [addMultiname]
    exact ⟨(h₁.trans h₂).trans (enlarges_addMultinameEntry
      ⟨mem_addNamespace _ ns, h₂.strings.mem (mem_addString pool name)⟩),
      mem_addMultinameEntry _ _⟩
  | .runtimeQualified attr name, pool => by
    rw [addMultiname]
    exact ⟨(enlarges_addString pool name).trans
      (enlarges_addMultinameEntry (mem_addString pool name)), mem_addMultinameEntry _ _⟩
  | .runtime attr, pool => by
    rw [addMultiname]
    exact ⟨enlarges_addMultinameEntry trivial, mem_addMultinameEntry _ _⟩
  | .ambiguous attr name set, pool => by
    have h₁ := enlarges_addString pool name
    have h₂ := enlarges_addNamespaceSet (pool.addString name) set
    rw [addMultiname]
    exact ⟨(h₁.trans h₂).trans (enlarges_addMultinameEntry
      ⟨h₂.strings.mem (mem_addString pool name), mem_addNamespaceSet _ set⟩),
      mem_addMultinameEntry _ _⟩
  | .late attr set, pool => by
    rw [addMultiname]
    exact ⟨(enlarges_addNamespaceSet pool set).trans
      (enlarges_addMultinameEntry (mem_addNamespaceSet pool set)), mem_addMultinameEntry _ _⟩
  | .applied base params, pool => by
    obtain ⟨h₁, hbase⟩ := enlarges_addMultiname base pool
    obtain ⟨h₂, hparams⟩ := enlarges_addMultinames params (pool.addMultiname base)
    rw [addMultiname]
    exact ⟨(h₁.trans h₂).trans (enlarges_addMultinameEntry ⟨h₂.multinames.mem hbase, hparams⟩),
      mem_addMultinameEntry _ _⟩

theorem enlarges_addMultinames : ∀ (names : List Multiname) (pool : Pool),
    pool.Enlarges (pool.addMultinames names) ∧
      ∀ name ∈ names, name ∈ (pool.addMultinames names).multinames
  | [], pool => by
    rw [addMultinames]
    exact ⟨.refl pool, by simp⟩
  | name :: names, pool => by
    obtain ⟨h₁, hname⟩ := enlarges_addMultiname name pool
    obtain ⟨h₂, hnames⟩ := enlarges_addMultinames names (pool.addMultiname name)
    rw [addMultinames]
    refine ⟨h₁.trans h₂, ?_⟩
    rw [List.forall_mem_cons]
    exact ⟨h₂.multinames.mem hname, hnames⟩
end

end Pool

end ActionBytecode
