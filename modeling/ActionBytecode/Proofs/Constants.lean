/-
  ActionBytecode — the constants of a pool that was read.

  Whatever the bytes, a pool that is read is sound (`Pool.Sound`, `yields_pool`): its tables and
  strings are no longer than the bytes, the parts of each constant are constants of the same pool,
  and each private namespace is numbered by its index.

  Type applications refer to other multinames by index, and what they refer to stands in the table
  too (`Denotes.mem`).
-/
import ActionBytecode.Layout.Pool
import ActionBytecode.Proofs.Interning
import ActionBytecode.Proofs.References
import ActionBytecode.Proofs.Resolution
import ActionBytecode.Proofs.Yield

namespace ActionBytecode

/-! ## Sound pools -/

/-- What holds of every pool that is read from at most `limit` bytes. -/
structure Pool.Sound (pool : Pool) (limit : Nat) : Prop extends pool.Closed where
  sizes : ∀ n ∈ pool.sizes, n ≤ limit + 1
  /-- However many bytes there are, counts on the wire have 32 bits. -/
  words : ∀ n ∈ pool.sizes, n < 0x100000000
  strings : ∀ s ∈ pool.strings, (Utf8.encode s).length ≤ limit + 1
  /-- A private namespace is numbered by its index. -/
  numbers : ∀ i ns, pool.namespaces[i]? = some ns → ns = Namespace.ofKind ns.kind ns.name i
  setSizes : ∀ set ∈ pool.namespaceSets, set.members.length ≤ limit
  applications : ∀ base params, Multiname.applied base params ∈ pool.multinames →
    params.length ≤ limit

/-- What an index stands for is in the table. -/
theorem MultinameEntry.Denotes.mem {entries : Array MultinameEntry} {names : List Multiname}
    (hn : List.Forall₂ (Denotes entries) (List.range entries.size) names) {i : Nat}
    {name : Multiname} (h : Denotes entries i name) : name ∈ names :=
  List.mem_of_getElem? (h.getElem? hn)

/-! ## Entries -/

/-- What holds of an entry that is read: a plain multiname is made of what was read before it, and
    an application has no more parameters than bytes. -/
def MultinameEntry.Sound (strings : Array String) (namespaces : Array Namespace)
    (sets : Array NamespaceSet) (limit : Nat) : MultinameEntry → Prop
  | .plain name => name.MadeOf strings namespaces sets #[]
  | .application _ _ params => params.length ≤ limit

namespace MultinameEntry

variable {strings : Array String} {namespaces : Array Namespace} {sets : Array NamespaceSet}
  {limit : Nat} {entries : Array MultinameEntry} {names : List Multiname} {i : Nat}
  {name : Multiname}

/-- What an index stands for is made of constants of the tables. -/
theorem Denotes.madeOf (he : ∀ entry ∈ entries, entry.Sound strings namespaces sets limit)
    (hn : List.Forall₂ (Denotes entries) (List.range entries.size) names)
    (h : Denotes entries i name) : name.MadeOf strings namespaces sets names.toArray := by
  cases h with
  | plain h =>
    exact Multiname.MadeOf.mono (fun _ hs => hs) (fun _ hns => hns) (fun _ hset => hset)
      (fun _ hn => absurd hn (Array.not_mem_empty _)) (he _ (Array.mem_of_getElem? h))
  | @application _ offset base params b ps h hb hl hp =>
    refine ⟨List.mem_toArray.2 (hb.mem hn), fun p hmem => List.mem_toArray.2 ?_⟩
    obtain ⟨j, hj⟩ := List.getElem?_of_mem hmem
    have hlt : j < params.length := hl ▸ (List.getElem?_eq_some_iff.1 hj).1
    exact (hp j _ p (List.getElem?_eq_getElem hlt) hj).mem hn

theorem Denotes.length_le (he : ∀ entry ∈ entries, entry.Sound strings namespaces sets limit)
    {base : Multiname} {params : List Multiname} (h : Denotes entries i (.applied base params)) :
    params.length ≤ limit := by
  cases h with
  | plain h => exact absurd (he _ (Array.mem_of_getElem? h)).1 (Array.not_mem_empty base)
  | application h _ hl _ => exact hl ▸ he _ (Array.mem_of_getElem? h)

end MultinameEntry

/-- A set has no more members than were listed. -/
theorem NamespaceSet.length_ofList (members : List Namespace) :
    (NamespaceSet.ofList members).members.length ≤ members.length :=
  (List.subperm_of_subset (NamespaceSet.ofList members).nodup_members fun _ hm =>
    NamespaceSet.mem_ofList.1 hm).length_le

namespace Reader

variable {limit : Nat} {strings : Array String} {namespaces : Array Namespace}
  {sets : Array NamespaceSet}

theorem Yields.table {α : Type} {read : Reader α} {known : α → Prop}
    (h : Yields limit read fun n a => 1 ≤ n ∧ known a) :
    Yields limit (table read) fun _ as =>
      (as.length ≤ limit ∧ as.length + 1 < 0x100000000) ∧ ∀ a ∈ as, known a := by
  have hindex : Yields limit index fun n k => 1 ≤ n ∧ k < 0x100000000 :=
    yields_u30.bind fun _ count h => yields_pure ⟨h.1, count.toNat_lt⟩
  refine hindex.bind fun m k hm => (h.times (k - 1)).mono ?_
  rintro n as hn ⟨hk, hkn, has⟩
  exact ⟨⟨by omega, by omega⟩, has⟩

/-- The entry of a table is in the table. -/
theorem yields_member {α : Type} {table : Table} {values : Array α} :
    Yields limit (entry table (values[·]?)) fun n a => 1 ≤ n ∧ a ∈ values := by
  refine yields_entry.mono ?_
  rintro n a - ⟨hn, i, ha⟩
  exact ⟨hn, Array.mem_of_getElem? ha⟩

theorem yields_memberFrom {α : Type} {start : Nat} {table : Table} {values : Array α} :
    Yields limit (entryFrom start table (values[·]?)) fun n a => 1 ≤ n ∧ a ∈ values := by
  refine yields_entryFrom.mono ?_
  rintro n a - ⟨hn, i, ha⟩
  exact ⟨hn, Array.mem_of_getElem? ha⟩

theorem yields_namespaceEntry : Yields limit (namespaceEntry strings) fun n entry =>
    1 ≤ n ∧ entry.2 ∈ strings := by
  refine yields_offset_bind fun _ => yields_u8.bind fun m tag hm =>
    yields_require_bind fun kind _ => yields_member.bind ?_
  rintro n name ⟨hn, hname⟩
  exact yields_pure ⟨by omega, hname⟩

theorem yields_namespaceSet : Yields limit (namespaceSet namespaces) fun n set =>
    1 ≤ n ∧ set.members.length ≤ limit ∧ ∀ ns ∈ set.members, ns ∈ namespaces := by
  refine yields_member.list.bind ?_
  rintro n members ⟨hn, hlimit, hmembers⟩
  refine yields_pure ⟨hn, (NamespaceSet.length_ofList members).trans hlimit, fun ns hns => ?_⟩
  exact hmembers ns (NamespaceSet.mem_ofList.1 hns)

theorem yields_multinameEntry : Yields limit (multinameEntry strings namespaces sets) fun n entry =>
    1 ≤ n ∧ entry.Sound strings namespaces sets limit := by
  rw [multinameEntry_eq]
  refine yields_offset_bind fun start => yields_u8.bind fun m tag hm =>
    yields_require_bind fun kind _ => ?_
  subst hm
  have hqualified : ∀ attr, Yields limit (do
      let ns ← entryFrom start .nspace (namespaces[·]?)
      return MultinameEntry.plain (.qualified attr ns (← entry .string (strings[·]?))))
      fun n entry => 1 ≤ 1 + n ∧ entry.Sound strings namespaces sets limit := fun attr =>
    yields_memberFrom.bind fun m ns hns => yields_member.bind fun n name hname =>
      yields_pure ⟨by omega, hns.2, hname.2⟩
  have hambiguous : ∀ attr, Yields limit (do
      let name ← entry .string (strings[·]?)
      return MultinameEntry.plain
        (.ambiguous attr name (← entryFrom start .namespaceSet (sets[·]?))))
      fun n entry => 1 ≤ 1 + n ∧ entry.Sound strings namespaces sets limit := fun attr =>
    yields_member.bind fun m name hname => yields_memberFrom.bind fun n set hset =>
      yields_pure ⟨by omega, hname.2, hset.2⟩
  cases kind with
  | qName => exact hqualified false
  | qNameA => exact hqualified true
  | rtqName => exact yields_member.bind fun n name hname => yields_pure ⟨by omega, hname.2⟩
  | rtqNameA => exact yields_member.bind fun n name hname => yields_pure ⟨by omega, hname.2⟩
  | rtqNameL => exact yields_pure ⟨by omega, trivial⟩
  | rtqNameLA => exact yields_pure ⟨by omega, trivial⟩
  | multiname => exact hambiguous false
  | multinameA => exact hambiguous true
  | multinameL => exact yields_memberFrom.bind fun n set hset => yields_pure ⟨by omega, hset.2⟩
  | multinameLA => exact yields_memberFrom.bind fun n set hset => yields_pure ⟨by omega, hset.2⟩
  | typeName =>
    refine yields_index.bind fun m base hm =>
      (Yields.list (yields_index.mono fun n _ _ hn => ⟨hn, trivial⟩)).bind fun n params hp => ?_
    exact yields_pure ⟨by omega, hp.2.1⟩

/-- The multinames are those that entries stand for. -/
theorem yields_multinames : Yields limit (multinames strings namespaces sets) fun _ names =>
    ∃ entries : List MultinameEntry,
      (entries.length ≤ limit ∧ entries.length + 1 < 0x100000000) ∧
      (∀ entry ∈ entries, entry.Sound strings namespaces sets limit) ∧
      resolveMultinames (.plain .any :: entries).toArray = .ok names := by
  refine yields_multinameEntry.table.bind ?_
  rintro - entries ⟨hentries, hparts⟩
  exact yields_ofExcept fun names hresolve => ⟨entries, hentries, hparts, hresolve⟩

/-! ## The pool -/

/-- The namespace at an index is numbered by it. -/
theorem getElem?_namespacesOf {entries : List (NamespaceKind × String)} {i : Nat} {ns : Namespace}
    (h : (.global :: namespacesOf entries).toArray[i]? = some ns) :
    ns = Namespace.ofKind ns.kind ns.name i ∧
      (ns.name = anyName ∨ ∃ entry ∈ entries, ns.name = entry.2) := by
  rw [List.getElem?_toArray] at h
  cases i with
  | zero =>
    cases h
    exact ⟨rfl, .inl rfl⟩
  | succ i =>
    rw [List.getElem?_cons_succ, namespacesOf, List.getElem?_map, List.getElem?_zipIdx] at h
    obtain ⟨x, hx, rfl⟩ := Option.map_eq_some_iff.1 h
    obtain ⟨entry, he, rfl⟩ := Option.map_eq_some_iff.1 hx
    refine ⟨?_, .inr ⟨entry, List.mem_of_getElem? he, rfl⟩⟩
    rw [Nat.add_comm i 1]
    rfl

/-- **A pool that is read from any bytes is sound.** -/
theorem yields_pool : Yields limit pool fun _ pool => pool.Sound limit := by
  have hnumber {α : Type} {read : Reader α} (h : Yields limit read fun n _ => 1 ≤ n) :
      Yields limit (table read) fun _ as => as.length ≤ limit ∧ as.length + 1 < 0x100000000 :=
    (Yields.table (h.mono fun n _ _ hn => ⟨hn, trivial⟩)).mono fun _ _ _ h => h.1
  have htext : Yields limit text fun n s => 1 ≤ n ∧ (Utf8.encode s).length ≤ limit :=
    yields_text.mono fun n s hn hs => ⟨by omega, by omega⟩
  refine (hnumber yields_s32).bind fun _ ints hints =>
    (hnumber yields_u32).bind fun _ uints huints =>
    (hnumber yields_d64).bind fun _ doubles hdoubles => htext.table.bind ?_
  rintro - strings ⟨hstrings, htexts⟩
  refine yields_namespaceEntry.table.bind ?_
  rintro - namespaces ⟨hnamespaces, hnames⟩
  refine yields_namespaceSet.table.bind ?_
  rintro - sets ⟨hsets, hmembers⟩
  refine yields_multinames.bind ?_
  rintro - names ⟨entries, hentries, hparts, hresolve⟩
  refine yields_pure ?_
  -- entries can refer to later ones, so their names are known from what they denote
  have hdenotes := Resolution.resolveMultinames_denotes hresolve
  have hsize := hdenotes.length_eq
  simp only [List.length_range, List.size_toArray, List.length_cons] at hsize
  have hsound : ∀ entry ∈ (MultinameEntry.plain .any :: entries).toArray, entry.Sound _ _ _ limit :=
    fun entry he => (List.mem_cons.1 (List.mem_toArray.1 he)).elim
      (fun h => h ▸ ⟨by simp, by simp⟩) (hparts entry)
  exact {
    int := rfl
    uint := rfl
    double := rfl
    string := rfl
    global := rfl
    empty := rfl
    any := by
      obtain ⟨name, hname, hdenoted⟩ := exists_getElem? hdenotes (i := 0) (x := 0) (by simp)
      have hany : name = .any := hdenoted.unique (.plain (by simp))
      rw [List.getElem?_toArray, hname, hany]
    sizes := by
      simp only [Pool.sizes, List.size_toArray, List.length_cons, namespacesOf, List.length_map,
        List.length_zipIdx, List.mem_cons, List.not_mem_nil, or_false]
      omega
    words := by
      simp only [Pool.sizes, List.size_toArray, List.length_cons, namespacesOf, List.length_map,
        List.length_zipIdx, List.mem_cons, List.not_mem_nil, or_false]
      omega
    strings := by
      simp only [List.mem_toArray, List.forall_mem_cons]
      exact ⟨(by decide : (Utf8.encode anyName).length ≤ 1).trans (Nat.le_add_left 1 limit),
        fun s hs => (htexts s hs).trans (Nat.le_succ limit)⟩
    numbers := fun i ns h => (getElem?_namespacesOf h).1
    names := fun ns hns => by
      obtain ⟨i, hi⟩ := Array.getElem?_of_mem hns
      rcases (getElem?_namespacesOf hi).2 with h | ⟨entry, he, h⟩
      · simp [h]
      · exact h ▸ hnames entry he
    members := by
      simp only [List.mem_toArray, List.forall_mem_cons]
      exact ⟨by simp [NamespaceSet.empty], fun set hset ns hns =>
        List.mem_toArray.1 ((hmembers set hset).2 ns hns)⟩
    setSizes := by
      simp only [List.mem_toArray, List.forall_mem_cons]
      exact ⟨Nat.zero_le limit, fun set hset => (hmembers set hset).1⟩
    parts := fun name hname => by
      obtain ⟨i, -, hi⟩ := exists_mem_left hdenotes (List.mem_toArray.1 hname)
      exact hi.madeOf hsound hdenotes
    applications := fun base params hname => by
      obtain ⟨i, -, hi⟩ := exists_mem_left hdenotes (List.mem_toArray.1 hname)
      exact hi.length_le hsound }

end Reader

end ActionBytecode
