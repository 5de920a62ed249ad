/-
  ActionBytecode — the constant pool read back.

  * `reads_pool`: the pool that is written for an indexing is read back with its namespaces
    numbered anew, exactly when its counts and the lengths of its strings can be read
    (`Pool.Legible`).

  A type application refers only to multinames before it, so the multinames are resolved
  (`resolveMultinames_eq_ok`).
-/
import ActionBytecode.Layout.Pool
import ActionBytecode.Proofs.References
import ActionBytecode.Proofs.Resolution

namespace ActionBytecode

/-- The counts and lengths of the pool can be read. -/
structure Pool.Legible (pool : Pool) : Prop where
  sizes : ∀ n ∈ pool.sizes, n < countLimit
  strings : ∀ s ∈ pool.strings, (Utf8.encode s).length < countLimit
  sets : ∀ set ∈ pool.namespaceSets, set.members.length < countLimit
  applications : ∀ base params, Multiname.applied base params ∈ pool.multinames →
    params.length < countLimit

/-- The parameters of a multiname, if it is a type application, can be counted. -/
def Multiname.Countable : Multiname → Prop
  | .applied _ params => params.length < countLimit
  | _ => True

/-- `f` numbers each private namespace by its index. -/
def Indexing.NumbersBy (a : Indexing) (f : Namespace → Namespace) : Prop :=
  ∀ i ns, a.namespaces.values[i]? = some ns → f ns = .ofKind ns.kind ns.name i

/-! ## Resolving multinames -/

/-- The entry stands for the multiname, its parts given by their places in `names`. -/
inductive MultinameEntry.StandsFor (f : Namespace → Namespace) (names : List Multiname) :
    Multiname → MultinameEntry → Prop
  | plain {name : Multiname} (hn : name.application? = none) :
    StandsFor f names name (.plain (name.rename f))
  | application {base : Multiname} {params : List Multiname} (offset : Nat) {i : Nat}
    {is : List Nat} (hb : names[i]? = some base)
    (hp : List.Forall₂ (fun p i => names[i]? = some p) params is) :
    StandsFor f names (.applied base params) (.application offset i is)

section
variable {f : Namespace → Namespace} {names : List Multiname}

/-- Each part of an application stands before it. -/
def PartsFirst (names : List Multiname) : Prop :=
  ∀ k base params, names[k]? = some (.applied base params) →
    base ∈ names.take k ∧ ∀ p ∈ params, p ∈ names.take k

theorem lt_of_mem_take (hd : names.Nodup) {name : Multiname} {i k : Nat}
    (hi : names[i]? = some name) (hk : name ∈ names.take k) : i < k := by
  obtain ⟨j, hj⟩ := List.mem_iff_getElem?.1 hk
  rw [List.getElem?_take] at hj
  split at hj
  · next hjk =>
    have := (List.nodup_iff_getElem?_ne_getElem?.1 hd)
    rcases Nat.lt_trichotomy i j with h | h | h
    · omega
    · omega
    · exact absurd (hj.trans hi.symm) (this j i h (List.getElem?_eq_some_iff.1 hi).1)
  · cases hj

variable {entries : Array MultinameEntry}
  (hd : names.Nodup) (hp : PartsFirst names)
  (he : List.Forall₂ (MultinameEntry.StandsFor f names) names entries.toList)
include hd hp he

/-- The references of the entries lead to earlier ones. -/
theorem lt_of_refers {i j : Nat} (h : MultinameEntry.Refers entries i j) : j < i := by
  obtain ⟨offset, base, params, hi, hj⟩ := h
  obtain ⟨name, hn, hs⟩ := exists_getElem? he.flip (i := i) (by rw [Array.getElem?_toList, hi])
  cases hs with
  | @application b ps offset base params hb hps =>
    obtain ⟨hbk, hpk⟩ := hp i b ps hn
    rcases List.mem_cons.1 hj with rfl | hj
    · exact lt_of_mem_take hd hb hbk
    · obtain ⟨p, hpm, hpj⟩ := exists_mem_left hps hj
      exact lt_of_mem_take hd hpj (hpk p hpm)

/-- The entry of a multiname stands for it. -/
theorem denotes_rename (k : Nat) {name : Multiname} (hn : names[k]? = some name) :
    MultinameEntry.Denotes entries k (name.rename f) := by
  induction k using Nat.strongRecOn generalizing name with
  | ind k ih =>
    obtain ⟨entry, hk, hs⟩ := exists_getElem? he hn
    rw [Array.getElem?_toList] at hk
    cases hs with
    | plain => exact .plain hk
    | @application base params offset i is hb hps =>
      obtain ⟨hbk, hpk⟩ := hp k base params hn
      have hparams : List.Forall₂ (fun i p => MultinameEntry.Denotes entries i p) is
          (params.map (·.rename f)) := by
        refine List.forall₂_map_right_iff.2 (forall₂_of_mem hps fun p hpm i hi => ?_).flip
        exact ih i (lt_of_mem_take hd hi (hpk p hpm)) hi
      rw [Multiname.rename, Multiname.renameAll_eq_map]
      refine .application hk (ih i (lt_of_mem_take hd hb hbk) hb) hparams.length_eq
        fun j i p hi hj => ?_
      obtain ⟨q, hq, hdenotes⟩ := exists_getElem? hparams hi
      cases hj.symm.trans hq
      exact hdenotes

/-- **Multinames that stand after their parts are resolved.** -/
theorem resolveMultinames_eq_ok :
    resolveMultinames entries = .ok (names.map (·.rename f)) := by
  have hsize : names.length = entries.size := he.length_eq.trans Array.length_toList
  obtain ⟨found, hfound⟩ := Resolution.exists_resolveMultinames fun i j => lt_of_refers hd hp he
  have hall : List.Forall₂ (MultinameEntry.Denotes entries) (List.range entries.size)
      (names.map (·.rename f)) := by
    refine List.forall₂_iff_get.2 ⟨by simp [hsize], fun i hi hi' => ?_⟩
    have hin : i < names.length := by simpa using hi'
    simpa using denotes_rename hd hp he i (List.getElem?_eq_getElem hin)
  have hunique : Relator.RightUnique (MultinameEntry.Denotes entries) :=
    fun _ _ _ h h' => h.unique h'
  rw [hfound, List.right_unique_forall₂' hunique (Resolution.resolveMultinames_denotes hfound) hall]

end

namespace Reader

/-! ## Tables -/

section
variable {α γ : Type} {read : Reader α} {write : γ → Except Fault Bytes} {legible : γ → Prop}
  {xs : List γ} {bytes : Bytes}

/-- A table is read back entry by entry, if its size, the fixed entry included, can be read. -/
theorem exists_reads_table {R : γ → α → Prop} (hw : Bytes.table write xs = .ok bytes)
    (h : xs.length + 1 < countLimit → ∀ x ∈ xs, ∀ bs, write x = .ok bs →
      ∀ start, ∃ a, Reads read start bs (legible x) a ∧ R x a) (start : Nat) :
    ∃ as, Reads (table read) start bytes
      (xs.length + 1 < countLimit ∧ ∀ x ∈ xs, legible x) as ∧
      (xs.length + 1 < countLimit → List.Forall₂ R xs as) := by
  obtain ⟨count, hc, hw⟩ := bind_eq_ok.1 hw
  obtain ⟨written, hws, hw⟩ := bind_eq_ok.1 hw
  rw [← pure_eq_ok.1 hw]
  have hcount := reads_index hc start
  have hlimit : (if xs.isEmpty then 0 else xs.length + 1) < countLimit ↔
      xs.length + 1 < countLimit := by
    cases xs <;> simp [countLimit]
  have hn : (if xs.isEmpty then 0 else xs.length + 1) - 1 = xs.length := by
    cases xs <;> simp
  by_cases hl : xs.length + 1 < countLimit
  · obtain ⟨as, has, hR⟩ := exists_reads_times (forall₂_of_mem (mapM_eq_ok.1 hws) (h hl))
      (start + count.length)
    refine ⟨as, Reads.of_eq (hcount.bind fun _ => ?_) rfl (and_congr_left' hlimit) rfl,
      fun _ => hR⟩
    rw [hn]
    exact has
  · exact ⟨[], Reads.of_eq (hcount.bind fun hp => absurd (hlimit.1 hp) hl) rfl
      (and_congr_left' hlimit) rfl, fun hp => absurd hp hl⟩

theorem Reads.table {image : γ → α} (hw : Bytes.table write xs = .ok bytes)
    (h : ∀ x ∈ xs, ∀ bs, write x = .ok bs → ∀ start, Reads read start bs (legible x) (image x))
    (start : Nat) :
    Reads (table read) start bytes (xs.length + 1 < countLimit ∧ ∀ x ∈ xs, legible x)
      (xs.map image) := by
  obtain ⟨as, has, hR⟩ := exists_reads_table (R := fun x a => image x = a) hw
    (fun _ x hx bs hbs start => ⟨image x, h x hx bs hbs start, rfl⟩) start
  by_cases hl : xs.length + 1 < countLimit
  · rwa [map_eq_iff.2 (hR hl)]
  · exact fun rest => ⟨fun hp => absurd hp.1 hl, (has rest).2⟩

end

/-! ## Entries -/

section
variable {a : Indexing} {f : Namespace → Namespace} {bytes : Bytes}

/-- The name of a namespace or multiname. -/
theorem reads_nameEntry {s : String} {i : Nat} (hi : a.nameIndex (some s) = .ok i)
    (hs : a.strings.values.length + 1 < countLimit) (start : Nat) :
    Reads (entry .string (a.toPool.strings[·]?)) start (Bytes.reference i) True s :=
  have hv := Indexing.getElem?_of_nameIndex hi
  reads_entry (Pool.lt_of_getElem?_eq_some hv (by simpa [Indexing.toPool] using hs)) hv start

theorem reads_namespaceEntry {ns : Namespace} (hw : a.namespaceBytes ns = .ok bytes)
    (hs : a.strings.values.length + 1 < countLimit) (start : Nat) :
    Reads (namespaceEntry a.toPool.strings) start bytes True (ns.kind, ns.name) := by
  obtain ⟨i, hi, hw⟩ := bind_eq_ok.1 hw
  rw [← pure_eq_ok.1 hw]
  rw [← List.singleton_append]
  exact reads_offset.bind_free ((reads_u8 start ns.kind.byte).bind_sure
    ((reads_require (NamespaceKind.ofByte?_byte _) _ _).bind_free
      ((reads_nameEntry hi hs _).bind_pure _)))

/-- **Namespaces are read back with their indices as numbers.** -/
theorem namespacesOf_eq (hf : a.NumbersBy f) {others : List Namespace}
    (ho : a.namespaces.values = .global :: others) :
    namespacesOf (others.map fun ns => (ns.kind, ns.name)) = others.map f := by
  apply List.ext_getElem?
  intro i
  rw [namespacesOf, List.getElem?_map, List.getElem?_zipIdx, List.getElem?_map, List.getElem?_map]
  cases hi : others[i]? with
  | none => rfl
  | some ns =>
    have := hf (i + 1) ns (by rw [ho, List.getElem?_cons_succ, hi])
    simp [this, Nat.add_comm]

/-- The members of a set are read back in the order in which they are written. -/
theorem reads_members {set : NamespaceSet} {namespaces : Array Namespace}
    (hn : namespaces = a.toPool.namespaces.map f)
    (hs : a.namespaces.values.length < countLimit)
    (hw : a.namespaceSetBytes set = .ok bytes) (start : Nat) :
    Reads (list (entry .nspace (namespaces[·]?))) start bytes (set.members.length < countLimit)
      (set.members.map f) := by
  have hl : Reads (list (entry .nspace (namespaces[·]?))) start bytes
      (set.members.length < countLimit ∧ ∀ ns ∈ set.members, True) (set.members.map f) := by
    refine Reads.list hw (fun ns _ bs hbs start => ?_) start
    obtain ⟨i, hi, hbs⟩ := bind_eq_ok.1 hbs
    rw [← pure_eq_ok.1 hbs]
    have hv := Indexing.getElem?_of_namespaceIndex hi
    refine reads_entry (Pool.lt_of_getElem?_eq_some hv ?_) ?_ start
    · simpa [Indexing.toPool] using hs
    · rw [hn, Array.getElem?_map, hv, Option.map_some]
  exact hl.of_eq rfl (by simp) rfl

theorem reads_namespaceSet {set : NamespaceSet} {namespaces : Array Namespace}
    (hn : namespaces = a.toPool.namespaces.map f)
    (hs : a.namespaces.values.length < countLimit)
    (hw : a.namespaceSetBytes set = .ok bytes) (start : Nat) :
    Reads (namespaceSet namespaces) start bytes (set.members.length < countLimit)
      (set.rename f) :=
  (reads_members hn hs hw start).bind_pure NamespaceSet.ofList

/-- The tag of a multiname is read before its parts. -/
theorem Reads.tagged {β : Type} {next : MultinameKind → Reader β} {kind : MultinameKind}
    {start source : Nat} {p : Prop} {b : β} (h : Reads (next kind) (start + 1) bytes p b) :
    Reads (u8 >>= fun tag => require (MultinameKind.ofByte? tag) source (.multinameKind tag) >>=
      next) start (kind.byte :: bytes) p b := by
  rw [← List.singleton_append]
  exact (reads_u8 start kind.byte).bind_sure
    ((reads_require (MultinameKind.ofByte?_byte _) _ _).bind_free h)

theorem exists_reads_multinameEntry {name : Multiname} {namespaces : Array Namespace}
    {sets : Array NamespaceSet} (hn : namespaces = a.toPool.namespaces.map f)
    (ht : sets = a.toPool.namespaceSets.map (·.rename f))
    (small : ∀ n ∈ a.toPool.sizes, n < countLimit)
    (hw : a.multinameBytes name = .ok bytes) (start : Nat) :
    ∃ entry, Reads (multinameEntry a.toPool.strings namespaces sets) start bytes
      name.Countable entry ∧ MultinameEntry.StandsFor f a.multinames.values name entry := by
  rw [multinameEntry_eq]
  have hstrings : a.strings.values.length + 1 < countLimit := by
    simpa [Indexing.toPool] using small a.toPool.strings.size (by simp [Pool.sizes])
  have hnspace {ns : Namespace} {i : Nat} (hi : a.namespaceIndex ns = .ok i) (start' : Nat) :
      Reads (entryFrom start .nspace (namespaces[·]?)) start' (Bytes.reference i) True (f ns) := by
    have hv := Indexing.getElem?_of_namespaceIndex hi
    refine reads_entryFrom (Pool.lt_of_getElem?_eq_some hv (small _ (by simp [Pool.sizes]))) ?_ _ _
    rw [hn, Array.getElem?_map, hv, Option.map_some]
  have hset {set : NamespaceSet} {i : Nat} (hi : a.namespaceSetIndex set = .ok i) (start' : Nat) :
      Reads (entryFrom start .namespaceSet (sets[·]?)) start' (Bytes.reference i) True
        (set.rename f) := by
    have hv := Indexing.getElem?_of_namespaceSetIndex hi
    refine reads_entryFrom (Pool.lt_of_getElem?_eq_some hv (small _ (by simp [Pool.sizes]))) ?_ _ _
    rw [ht, Array.getElem?_map, hv, Option.map_some]
  obtain ⟨parts, hp, hw⟩ := bind_eq_ok.1 hw
  rw [← pure_eq_ok.1 hw]
  cases name with
  | qualified attr ns name =>
    obtain ⟨i, hi, hp⟩ := bind_eq_ok.1 hp
    obtain ⟨j, hj, hp⟩ := bind_eq_ok.1 hp
    rw [← pure_eq_ok.1 hp]
    refine ⟨_, reads_offset.bind_free (Reads.tagged ?_), .plain rfl⟩
    cases attr <;>
      exact (hnspace hi (start + 1)).bind_sure ((reads_nameEntry hj hstrings _).bind_pure _)
  | runtimeQualified attr name =>
    obtain ⟨i, hi, hp⟩ := bind_eq_ok.1 hp
    rw [← pure_eq_ok.1 hp]
    refine ⟨_, reads_offset.bind_free (Reads.tagged ?_), .plain rfl⟩
    have h := (reads_nameEntry hi hstrings (start + 1)).bind_pure
      fun name => MultinameEntry.plain (.runtimeQualified attr name)
    cases attr <;> exact h
  | runtime attr =>
    rw [← pure_eq_ok.1 hp]
    refine ⟨_, reads_offset.bind_free (Reads.tagged ?_), .plain rfl⟩
    cases attr <;> exact reads_pure
  | ambiguous attr name set =>
    obtain ⟨i, hi, hp⟩ := bind_eq_ok.1 hp
    obtain ⟨j, hj, hp⟩ := bind_eq_ok.1 hp
    rw [← pure_eq_ok.1 hp]
    refine ⟨_, reads_offset.bind_free (Reads.tagged ?_), .plain rfl⟩
    cases attr <;>
      exact (reads_nameEntry hi hstrings (start + 1)).bind_sure ((hset hj _).bind_pure _)
  | late attr set =>
    obtain ⟨i, hi, hp⟩ := bind_eq_ok.1 hp
    rw [← pure_eq_ok.1 hp]
    refine ⟨_, reads_offset.bind_free (Reads.tagged ?_), .plain rfl⟩
    have h := (hset hi (start + 1)).bind_pure fun set => MultinameEntry.plain (.late attr set)
    cases attr <;> exact h
  | applied base params =>
    obtain ⟨i, hi, hp⟩ := bind_eq_ok.1 hp
    obtain ⟨more, hm, hp⟩ := bind_eq_ok.1 hp
    rw [← pure_eq_ok.1 hp]
    have hmultiname {p : Multiname} {i : Nat} (hi : a.multinameIndex p = .ok i) :
        i < countLimit ∧ a.multinames.values[i]? = some p :=
      have hv := Indexing.getElem?_of_multinameIndex hi
      ⟨Pool.lt_of_getElem?_eq_some hv (small _ (by simp [Pool.sizes])),
        by simpa [Indexing.toPool] using hv⟩
    have hparam (p : Multiname) (_ : p ∈ params) (bs : Bytes)
        (hbs : (return Bytes.reference (← a.multinameIndex p)) = Except.ok bs) (start : Nat) :
        ∃ i, Reads index start bs True i ∧ a.multinames.values[i]? = some p := by
      obtain ⟨i, hi, hbs⟩ := bind_eq_ok.1 hbs
      rw [← pure_eq_ok.1 hbs]
      exact ⟨i, reads_reference (hmultiname hi).1 start, (hmultiname hi).2⟩
    obtain ⟨is, his, hR⟩ :=
      exists_reads_list hm hparam (start + 1 + (Bytes.reference i).length)
    refine ⟨_, reads_offset.bind_free (Reads.tagged ?_), .application start (hmultiname hi).2 hR⟩
    exact Reads.of_eq ((reads_reference (hmultiname hi).1 (start + 1)).bind_sure
      (his.bind_pure _)) rfl (by simp [Multiname.Countable]) rfl

/-! ## The pool -/

theorem eq_cons_of_getElem?_zero {α : Type} {xs : List α} {x : α} (h : xs[0]? = some x) :
    xs = x :: xs.tail := by
  cases xs with
  | nil => cases h
  | cons y ys => simpa using h

theorem reads_literals {α : Type} {read : Reader α} {write : α → Bytes} {xs : List α}
    (hw : Bytes.table (fun x => .ok (write x)) xs = .ok bytes)
    (h : ∀ start x, Reads read start (write x) True x) (start : Nat) :
    Reads (table read) start bytes (xs.length + 1 < countLimit) xs := by
  have ht : Reads (table read) start bytes (xs.length + 1 < countLimit ∧ ∀ x ∈ xs, True)
      (xs.map id) := by
    refine Reads.table hw (fun x _ bs hbs start => ?_) start
    cases hbs
    exact h start x
  exact ht.of_eq rfl (by simp) (List.map_id xs)

theorem reads_strings (hw : Bytes.table Bytes.text a.strings.values = .ok bytes) (start : Nat) :
    Reads (table text) start bytes (a.strings.values.length + 1 < countLimit ∧
      ∀ s ∈ a.strings.values, (Utf8.encode s).length < countLimit) a.strings.values := by
  have ht : Reads (table text) start bytes (a.strings.values.length + 1 < countLimit ∧
      ∀ s ∈ a.strings.values, (Utf8.encode s).length < countLimit) (a.strings.values.map id) :=
    Reads.table hw (fun s _ bs hbs start => reads_text hbs start) start
  exact ht.of_eq rfl Iff.rfl (List.map_id _)

theorem reads_namespaces (hw : Bytes.table a.namespaceBytes a.namespaces.values.tail = .ok bytes)
    (hs : a.strings.values.length + 1 < countLimit) (start : Nat) :
    Reads (table (namespaceEntry a.toPool.strings)) start bytes
      (a.namespaces.values.tail.length + 1 < countLimit)
      (a.namespaces.values.tail.map fun ns => (ns.kind, ns.name)) := by
  have ht : Reads (table (namespaceEntry a.toPool.strings)) start bytes
      (a.namespaces.values.tail.length + 1 < countLimit ∧ ∀ x ∈ a.namespaces.values.tail, True)
      (a.namespaces.values.tail.map fun ns => (ns.kind, ns.name)) :=
    Reads.table hw (fun ns _ bs hbs start => reads_namespaceEntry hbs hs start) start
  exact ht.of_eq rfl (by simp) rfl

theorem reads_namespaceSets
    (hw : Bytes.table a.namespaceSetBytes a.namespaceSets.values.tail = .ok bytes)
    (hs : a.namespaces.values.length < countLimit) (start : Nat) :
    Reads (table (namespaceSet (a.toPool.namespaces.map f))) start bytes
      (a.namespaceSets.values.tail.length + 1 < countLimit ∧
        ∀ set ∈ a.namespaceSets.values.tail, set.members.length < countLimit)
      (a.namespaceSets.values.tail.map (·.rename f)) :=
  Reads.table hw (fun _ _ _ hbs start => reads_namespaceSet rfl hs hbs start) start

/-- The multinames of a closed indexing are resolved from their entries. -/
theorem reads_multinames (closed : a.Closed)
    (hw : Bytes.table a.multinameBytes a.multinames.values.tail = .ok bytes)
    (small : a.multinames.values.length < countLimit → ∀ n ∈ a.toPool.sizes, n < countLimit)
    (start : Nat) :
    Reads (multinames a.toPool.strings (a.toPool.namespaces.map f)
        (a.toPool.namespaceSets.map (·.rename f))) start bytes
      (a.multinames.values.tail.length + 1 < countLimit ∧
        ∀ name ∈ a.multinames.values.tail, name.Countable)
      (a.multinames.values.map (·.rename f)) := by
  have hm := eq_cons_of_getElem?_zero closed.any
  have hlen : a.multinames.values.tail.length + 1 = a.multinames.values.length := by
    rw [← List.length_cons (a := Multiname.any), ← hm]
  obtain ⟨entries, he, hR⟩ := exists_reads_table hw (fun hl name _ bs hbs start =>
    exists_reads_multinameEntry (f := f) rfl rfl (small (hlen ▸ hl)) hbs start) start
  refine he.bind_last fun hl => ?_
  have hstands : List.Forall₂ (MultinameEntry.StandsFor f a.multinames.values)
      a.multinames.values (.plain .any :: entries) := by
    nth_rewrite 2 [hm]
    have hany : Multiname.any.application? = none := rfl
    exact .cons (MultinameEntry.StandsFor.plain hany) (hR hl.1)
  have hfirst : PartsFirst a.multinames.values := fun k base params hk => closed.parts k _ hk
  rw [resolveMultinames_eq_ok a.multinames.nodup hfirst hstands]
  exact reads_pure

theorem sizes_toPool (a : Indexing) : a.toPool.sizes =
    [a.ints.values.length + 1, a.uints.values.length + 1, a.doubles.values.length + 1,
      a.strings.values.length + 1, a.namespaces.values.length, a.namespaceSets.values.length,
      a.multinames.values.length] := rfl

/-- The conditions on the tables, one after another. -/
theorem legible_iff (closed : a.Closed) : a.toPool.Legible ↔
    a.ints.values.length + 1 < countLimit ∧ a.uints.values.length + 1 < countLimit ∧
    a.doubles.values.length + 1 < countLimit ∧
    (a.strings.values.length + 1 < countLimit ∧
      ∀ s ∈ a.strings.values, (Utf8.encode s).length < countLimit) ∧
    a.namespaces.values.tail.length + 1 < countLimit ∧
    (a.namespaceSets.values.tail.length + 1 < countLimit ∧
      ∀ set ∈ a.namespaceSets.values.tail, set.members.length < countLimit) ∧
    (a.multinames.values.tail.length + 1 < countLimit ∧
      ∀ name ∈ a.multinames.values.tail, name.Countable) := by
  have hn := eq_cons_of_getElem?_zero closed.global
  have hs := eq_cons_of_getElem?_zero closed.empty
  have hm := eq_cons_of_getElem?_zero closed.any
  have hsizes := sizes_toPool a
  rw [hn, hs, hm] at hsizes
  simp only [List.length_cons] at hsizes
  constructor
  · intro h
    have small := h.sizes
    simp only [hsizes, List.forall_mem_cons] at small
    obtain ⟨h₁, h₂, h₃, h₄, h₅, h₆, h₇, -⟩ := small
    refine ⟨h₁, h₂, h₃, ⟨h₄, fun s hs' => h.strings s (by simp [Indexing.toPool, hs'])⟩, h₅,
      ⟨h₆, fun set hset => h.sets set ?_⟩, h₇, fun name hname => ?_⟩
    · simpa [Indexing.toPool] using List.mem_of_mem_tail hset
    · cases name with
      | applied base params =>
        exact h.applications base params (by
          simpa [Indexing.toPool] using List.mem_of_mem_tail hname)
      | _ => trivial
  · rintro ⟨h₁, h₂, h₃, ⟨h₄, hstrings⟩, h₅, ⟨h₆, hsets⟩, h₇, hnames⟩
    refine ⟨?_, fun s hs' => ?_, fun set hset => ?_, fun base params hname => ?_⟩
    · simp only [hsizes, List.forall_mem_cons]
      exact ⟨h₁, h₂, h₃, h₄, h₅, h₆, h₇, by simp⟩
    · rcases List.mem_cons.1 (List.mem_toArray.1 hs') with rfl | hs'
      · decide
      · exact hstrings s hs'
    · have hset := List.mem_toArray.1 hset
      rw [hs, List.mem_cons] at hset
      rcases hset with rfl | hset
      · decide
      · exact hsets set hset
    · have hname := List.mem_toArray.1 hname
      rw [hm, List.mem_cons] at hname
      rcases hname with hname | hname
      · cases hname
      · exact hnames _ hname

/-- **The pool of an indexing is read back, its private namespaces numbered by their indices,
    exactly when it is legible.** -/
theorem reads_pool (closed : a.Closed) (hf : a.NumbersBy f) (hw : a.poolBytes = .ok bytes)
    (start : Nat) : Reads pool start bytes a.toPool.Legible (a.toPool.rename f) := by
  obtain ⟨ints, hints, hw⟩ := bind_eq_ok.1 hw
  obtain ⟨uints, huints, hw⟩ := bind_eq_ok.1 hw
  obtain ⟨doubles, hdoubles, hw⟩ := bind_eq_ok.1 hw
  obtain ⟨strings, hstrings, hw⟩ := bind_eq_ok.1 hw
  obtain ⟨namespaces, hnamespaces, hw⟩ := bind_eq_ok.1 hw
  obtain ⟨sets, hsets, hw⟩ := bind_eq_ok.1 hw
  obtain ⟨multinames, hmultinames, hw⟩ := bind_eq_ok.1 hw
  rw [← pure_eq_ok.1 hw]
  have hn := eq_cons_of_getElem?_zero closed.global
  have hs := eq_cons_of_getElem?_zero closed.empty
  have hm := eq_cons_of_getElem?_zero closed.any
  have hglobal : f .global = .global := hf 0 .global closed.global
  have hns : (Namespace.global :: namespacesOf
      (a.namespaces.values.tail.map fun ns => (ns.kind, ns.name))).toArray =
      a.toPool.namespaces.map f := by
    rw [namespacesOf_eq hf hn, Indexing.toPool, List.map_toArray]
    nth_rewrite 2 [hn]
    rw [List.map_cons, hglobal]
  have hss : (NamespaceSet.empty :: a.namespaceSets.values.tail.map (·.rename f)).toArray =
      a.toPool.namespaceSets.map (·.rename f) := by
    rw [Indexing.toPool, List.map_toArray]
    nth_rewrite 2 [hs]
    rw [List.map_cons]
    rfl
  simp only [List.append_assoc]
  refine Reads.of_eq (Reads.bind (reads_literals hints reads_s32 start) fun h₁ =>
    Reads.bind (reads_literals huints reads_u32 _) fun h₂ =>
    Reads.bind (reads_literals hdoubles reads_d64 _) fun h₃ =>
    Reads.bind (reads_strings hstrings _) fun h₄ =>
    Reads.bind (reads_namespaces hnamespaces h₄.1 _) fun h₅ => ?_)
    rfl (legible_iff closed).symm rfl
  rw [hns]
  have h₅' : a.namespaces.values.length < countLimit := by
    rw [hn]
    exact h₅
  refine Reads.bind (reads_namespaceSets hsets h₅' _) fun h₆ => ?_
  rw [hss]
  refine Reads.of_eq ((reads_multinames closed hmultinames ?_ _).bind_pure _) rfl Iff.rfl ?_
  · intro h₇
    rw [sizes_toPool]
    simp only [List.forall_mem_cons]
    refine ⟨h₁, h₂, h₃, h₄.1, h₅', ?_, h₇, by simp⟩
    rw [hs]
    exact h₆.1
  · rw [← List.map_toArray]
    rfl

end

end Reader

end ActionBytecode
