/-
  ActionBytecode — references read back.

  What is written in place of a constant, a method or a class is its index.  `Pool.Holds` and
  `Tables.Holds` say that tables have, at the index of each thing, what a renaming makes of it,
  and that they are small enough for their indices to be read.  Then every reference is read back
  as the renamed thing (`reads_multiname`, `reads_method` and so on).
-/
import ActionBytecode.Layout.Tables
import ActionBytecode.Proofs.Indexing
import ActionBytecode.Proofs.Renaming
import ActionBytecode.Proofs.Wire

namespace ActionBytecode

/-! ## Indices and places -/

namespace Indexing

section
variable {a : Indexing} {i : Nat}

theorem getElem?_of_intIndex {value : Int32} (h : a.intIndex value = .ok i) :
    a.toPool.ints[i]? = some value := by
  obtain ⟨j, hj, h⟩ := bind_eq_ok.1 h
  simpa [toPool, ← pure_eq_ok.1 h] using Numbering.id_eq_ok.1 hj

theorem getElem?_of_uintIndex {value : UInt32} (h : a.uintIndex value = .ok i) :
    a.toPool.uints[i]? = some value := by
  obtain ⟨j, hj, h⟩ := bind_eq_ok.1 h
  simpa [toPool, ← pure_eq_ok.1 h] using Numbering.id_eq_ok.1 hj

theorem getElem?_of_doubleIndex {value : Double} (h : a.doubleIndex value = .ok i) :
    a.toPool.doubles[i]? = some value := by
  obtain ⟨j, hj, h⟩ := bind_eq_ok.1 h
  simpa [toPool, ← pure_eq_ok.1 h] using Numbering.id_eq_ok.1 hj

/-- A literal never has the index 0. -/
theorem getElem?_of_literalIndex {s : String} (h : a.literalIndex s = .ok i) :
    a.toPool.strings[i]? = some s ∧ i ≠ 0 := by
  obtain ⟨j, hj, h⟩ := bind_eq_ok.1 h
  rw [← pure_eq_ok.1 h]
  exact ⟨by simpa [toPool] using Numbering.id_eq_ok.1 hj, by omega⟩

theorem spelled?_eq_some {name : Option String} {s : String} :
    spelled? name = some s ↔ name = some s ∧ s ≠ anyName := by
  simp [spelled?, Option.filter_eq_some_iff]

theorem spelled?_eq_none {name : Option String} :
    spelled? name = none ↔ name = none ∨ name = some anyName := by
  cases name <;> simp [spelled?]

theorem nameIndex_of_spelled {name : Option String} {s : String} (h : spelled? name = some s) :
    a.nameIndex name = a.literalIndex s := by
  rw [nameIndex, h]

theorem nameIndex_of_not_spelled {name : Option String} (h : spelled? name = none) :
    a.nameIndex name = .ok 0 := by
  rw [nameIndex, h]

theorem getElem?_of_nameIndex {s : String} (h : a.nameIndex (some s) = .ok i) :
    a.toPool.strings[i]? = some s := by
  cases hs : spelled? (some s) with
  | none =>
    rw [nameIndex_of_not_spelled hs] at h
    have : s = anyName := by simpa using spelled?_eq_none.1 hs
    cases h
    rw [this]
    rfl
  | some t =>
    rw [nameIndex_of_spelled hs] at h
    have : s = t := by simpa using (spelled?_eq_some.1 hs).1
    rw [this]
    exact (getElem?_of_literalIndex h).1

theorem getElem?_of_namespaceIndex {ns : Namespace} (h : a.namespaceIndex ns = .ok i) :
    a.toPool.namespaces[i]? = some ns := by
  simpa [toPool] using Numbering.id_eq_ok.1 h

theorem getElem?_of_namespaceSetIndex {set : NamespaceSet} (h : a.namespaceSetIndex set = .ok i) :
    a.toPool.namespaceSets[i]? = some set := by
  simpa [toPool] using Numbering.id_eq_ok.1 h

theorem getElem?_of_multinameIndex {name : Multiname} (h : a.multinameIndex name = .ok i) :
    a.toPool.multinames[i]? = some name := by
  simpa [toPool] using Numbering.id_eq_ok.1 h

end

end Indexing

/-! ## Renamed tables -/

namespace Pool

/-- The numbers of entries of the tables. -/
def sizes (pool : Pool) : List Nat :=
  [pool.ints.size, pool.uints.size, pool.doubles.size, pool.strings.size, pool.namespaces.size,
    pool.namespaceSets.size, pool.multinames.size]

/-- The pool with its namespaces replaced. -/
def rename (f : Namespace → Namespace) (pool : Pool) : Pool :=
  { pool with
    namespaces := pool.namespaces.map f
    namespaceSets := pool.namespaceSets.map (·.rename f)
    multinames := pool.multinames.map (·.rename f) }

theorem rename_id (pool : Pool) : pool.rename id = pool := by
  have hs : (fun set : NamespaceSet => set.rename id) = id := funext NamespaceSet.rename_id
  have hm : (fun name : Multiname => name.rename id) = id := funext Multiname.rename_id
  simp [rename, hs, hm]

/-- The pool has the constants with indices at these, renamed, and its indices can be read. -/
structure Holds (pool : Pool) (indexing : Indexing) (f : Namespace → Namespace) : Prop where
  eq_rename : pool = indexing.toPool.rename f
  small : ∀ n ∈ indexing.toPool.sizes, n < countLimit

theorem lt_of_getElem?_eq_some {α : Type} {table : Array α} {i : Nat} {a : α}
    (h : table[i]? = some a) (hs : table.size < countLimit) : i < countLimit :=
  Nat.lt_trans (Array.getElem?_eq_some_iff.1 h).1 hs

section
variable {pool : Pool} {indexing : Indexing} {f : Namespace → Namespace} {i : Nat}
  (h : pool.Holds indexing f)
include h

theorem Holds.int {value : Int32} (hi : indexing.intIndex value = .ok i) :
    i < countLimit ∧ pool.ints[i]? = some value := by
  have hv := Indexing.getElem?_of_intIndex hi
  refine ⟨lt_of_getElem?_eq_some hv (h.small _ (by simp [sizes])), ?_⟩
  rw [h.eq_rename]
  exact hv

theorem Holds.uint {value : UInt32} (hi : indexing.uintIndex value = .ok i) :
    i < countLimit ∧ pool.uints[i]? = some value := by
  have hv := Indexing.getElem?_of_uintIndex hi
  refine ⟨lt_of_getElem?_eq_some hv (h.small _ (by simp [sizes])), ?_⟩
  rw [h.eq_rename]
  exact hv

theorem Holds.double {value : Double} (hi : indexing.doubleIndex value = .ok i) :
    i < countLimit ∧ pool.doubles[i]? = some value := by
  have hv := Indexing.getElem?_of_doubleIndex hi
  refine ⟨lt_of_getElem?_eq_some hv (h.small _ (by simp [sizes])), ?_⟩
  rw [h.eq_rename]
  exact hv

theorem Holds.string {s : String} (hs : indexing.toPool.strings[i]? = some s) :
    i < countLimit ∧ pool.strings[i]? = some s := by
  refine ⟨lt_of_getElem?_eq_some hs (h.small _ (by simp [sizes])), ?_⟩
  rw [h.eq_rename]
  exact hs

theorem Holds.literal {s : String} (hi : indexing.literalIndex s = .ok i) :
    i < countLimit ∧ pool.strings[i]? = some s :=
  h.string (Indexing.getElem?_of_literalIndex hi).1

theorem Holds.nspace {ns : Namespace} (hi : indexing.namespaceIndex ns = .ok i) :
    i < countLimit ∧ pool.namespaces[i]? = some (f ns) := by
  have hv := Indexing.getElem?_of_namespaceIndex hi
  refine ⟨lt_of_getElem?_eq_some hv (h.small _ (by simp [sizes])), ?_⟩
  rw [h.eq_rename, rename, Array.getElem?_map, hv, Option.map_some]

theorem Holds.multiname {name : Multiname} (hi : indexing.multinameIndex name = .ok i) :
    i < countLimit ∧ pool.multinames[i]? = some (name.rename f) := by
  have hv := Indexing.getElem?_of_multinameIndex hi
  refine ⟨lt_of_getElem?_eq_some hv (h.small _ (by simp [sizes])), ?_⟩
  rw [h.eq_rename, rename, Array.getElem?_map, hv, Option.map_some]

end

end Pool

/-- The tables have what has an index at it, renamed, and their indices can be read. -/
structure Tables.Holds (tables : Tables) (indexing : Indexing) (r : Renaming) : Prop where
  constants : tables.pool.Holds indexing r.namespaces
  method : ∀ {i handle}, indexing.methods.values[i]? = some handle →
    tables.method? i = some (r.methods handle)
  classRef : ∀ {i handle}, indexing.classes.values[i]? = some handle →
    tables.class? i = some (r.classes handle)
  methods_small : indexing.methods.size < countLimit
  classes_small : indexing.classes.size < countLimit

namespace Reader

/-! ## Entries -/

theorem reads_reference {i : Nat} (hi : i < countLimit) (start : Nat) :
    Reads index start (Bytes.reference i) True i := by
  unfold countLimit at hi
  have hw : Bytes.index i = .ok (Bytes.reference i) := by
    rw [index_eq_ok]
    exact ⟨by omega, rfl⟩
  exact (reads_index hw start).of_eq rfl (iff_true_intro hi) rfl

section
variable {α : Type} {table : Table} {find : Nat → Option α} {i : Nat} {a : α}

theorem reads_entryFrom (hi : i < countLimit) (ha : find i = some a) (source start : Nat) :
    Reads (entryFrom source table find) start (Bytes.reference i) True a :=
  (reads_reference hi start).bind_last fun _ => reads_require ha _ _

theorem reads_entry (hi : i < countLimit) (ha : find i = some a) (start : Nat) :
    Reads (entry table find) start (Bytes.reference i) True a :=
  reads_offset.bind_free (reads_entryFrom hi ha start start)

end

/-- References to the members of a list. -/
theorem reads_references {α γ : Type} {find : γ → Except Fault Nat} {read : Reader α}
    {image : γ → α} {xs : List γ} {is : List Nat} (hw : xs.mapM find = .ok is)
    (h : ∀ x i, find x = .ok i → ∀ start, Reads read start (Bytes.reference i) True (image x))
    (start : Nat) :
    Reads (times xs.length read) start (is.map Bytes.reference).flatten True (xs.map image) := by
  have ht : Reads (times xs.length read) start (is.map Bytes.reference).flatten (∀ x ∈ xs, True)
      (xs.map image) := by
    refine Reads.times (List.forall₂_map_right_iff.2 ?_) start
    exact (mapM_eq_ok.1 hw).imp fun x i hi start => h x i hi start
  exact ht.of_eq rfl (by simp) rfl

/-! ## Constants -/

section
variable {tables : Tables} {indexing : Indexing} {f : Namespace → Namespace} {i : Nat}
  (h : tables.pool.Holds indexing f)
include h

theorem reads_string {s : String} (hi : indexing.nameIndex (some s) = .ok i) (start : Nat) :
    Reads (string tables) start (Bytes.reference i) True s :=
  have hv := h.string (Indexing.getElem?_of_nameIndex hi)
  reads_entry hv.1 hv.2 start

/-- **A name that is `*` is read back as a missing one.** -/
theorem reads_name {name : Option String} (hi : indexing.nameIndex name = .ok i) (start : Nat) :
    Reads (Reader.name tables) start (Bytes.reference i) True (spelled? name) := by
  cases hs : spelled? name with
  | none =>
    rw [Indexing.nameIndex_of_not_spelled hs] at hi
    cases hi
    have h₀ : 0 < countLimit := by decide
    exact reads_entry h₀ (if_pos rfl) start
  | some s =>
    rw [Indexing.nameIndex_of_spelled hs] at hi
    obtain ⟨hlt, hv⟩ := h.literal hi
    refine reads_entry hlt ?_ start
    rw [if_neg (Indexing.getElem?_of_literalIndex hi).2, hv, Option.map_some]

theorem reads_nspace {ns : Namespace} (hi : indexing.namespaceIndex ns = .ok i) (start : Nat) :
    Reads (nspace tables) start (Bytes.reference i) True (f ns) :=
  reads_entry (h.nspace hi).1 (h.nspace hi).2 start

theorem reads_multiname {name : Multiname} (hi : indexing.multinameIndex name = .ok i)
    (start : Nat) : Reads (multiname tables) start (Bytes.reference i) True (name.rename f) :=
  reads_entry (h.multiname hi).1 (h.multiname hi).2 start

end

/-! ## Methods and classes -/

section
variable {tables : Tables} {indexing : Indexing} {r : Renaming} {i : Nat}
  (h : tables.Holds indexing r)
include h

theorem reads_method {handle : MethodHandle} (hi : indexing.methodIndex handle = .ok i)
    (start : Nat) : Reads (method tables) start (Bytes.reference i) True (r.methods handle) :=
  reads_entry (Nat.lt_trans (Numbering.lt_size_of_id hi) h.methods_small)
    (h.method (Numbering.id_eq_ok.1 hi)) start

theorem reads_classRef {handle : ClassHandle} (hi : indexing.classIndex handle = .ok i)
    (start : Nat) : Reads (classRef tables) start (Bytes.reference i) True (r.classes handle) :=
  reads_entry (Nat.lt_trans (Numbering.lt_size_of_id hi) h.classes_small)
    (h.classRef (Numbering.id_eq_ok.1 hi)) start

end

end Reader

end ActionBytecode
