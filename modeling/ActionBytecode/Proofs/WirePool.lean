/-
  ActionBytecode — the pool on the wire.

  A unit that is written anew keeps the pool that was written.  What is read after the version is
  that pool again, index by index, up to the numbers of private namespaces: a private namespace
  that is read is numbered by its index.

  * `Pool.Corresponds`: two pools are the same under a renaming of namespaces;
  * `Indexing.Closed.legible_toPool_iff`: the pool of an indexing whose tables and strings are
    small can be read if and only if no type is applied to too many parameters; a set is never
    larger than the table of its members;
  * `Edit.pool_written`: what is written after the version reads back as the pool that is kept;
  * `Edit.pool_unreadable`: the condition on parameters is needed, because a list of them is
    written below `2^30`, and read below `countLimit` only.
-/
import ActionBytecode.Proofs.Closure
import ActionBytecode.Proofs.Reencoding
import ActionBytecode.Proofs.TraitLists

namespace ActionBytecode

/-! ## Pools that correspond -/

/-- The pools have the same constants at the same indices, namespaces being renamed. -/
structure Pool.Corresponds (f : Namespace → Namespace) (pool found : Pool) : Prop where
  sizes : found.sizes = pool.sizes
  ints : found.ints = pool.ints
  uints : found.uints = pool.uints
  doubles : found.doubles = pool.doubles
  strings : found.strings = pool.strings
  namespaces : ∀ (i : Nat) ns, pool.namespaces[i]? = some ns → found.namespaces[i]? = some (f ns)
  namespaceSets : ∀ (i : Nat) set, pool.namespaceSets[i]? = some set →
    ∃ renamed, found.namespaceSets[i]? = some renamed ∧
      ∀ ns, ns ∈ renamed ↔ ∃ member ∈ set, f member = ns
  multinames : ∀ (i : Nat) name, pool.multinames[i]? = some name →
    found.multinames[i]? = some (name.rename f)

theorem Pool.corresponds_rename (f : Namespace → Namespace) (pool : Pool) :
    pool.Corresponds f (pool.rename f) where
  sizes := by simp [sizes, rename]
  ints := rfl
  uints := rfl
  doubles := rfl
  strings := rfl
  namespaces i ns h := by simp [rename, h]
  namespaceSets i set h := ⟨set.rename f, by simp [rename, h], fun ns => NamespaceSet.mem_rename⟩
  multinames i name h := by simp [rename, h]

/-! ## Pools that can be read -/

namespace Indexing

variable {a : Indexing}

/-- The members of a set are namespaces of the table, and no two are the same. -/
theorem Closed.length_members_le (closed : a.Closed) {set : NamespaceSet}
    (hs : set ∈ a.toPool.namespaceSets) : set.members.length ≤ a.toPool.namespaces.size := by
  have hsub : set.members ⊆ a.namespaces.values := fun ns hns =>
    closed.members set (List.mem_toArray.1 hs) ns hns
  exact (set.nodup.subperm hsub).length_le

theorem Closed.legible_toPool_iff (closed : a.Closed)
    (hsizes : ∀ n ∈ a.toPool.sizes, n < countLimit)
    (hstrings : ∀ s ∈ a.toPool.strings, (Utf8.encode s).length < countLimit) :
    a.toPool.Legible ↔ ∀ base params, Multiname.applied base params ∈ a.toPool.multinames →
      params.length < countLimit := by
  refine ⟨fun h => h.applications, fun h => ⟨hsizes, hstrings, fun set hs => ?_, h⟩⟩
  exact (closed.length_members_le hs).trans_lt (hsizes _ (by simp [Pool.sizes]))

end Indexing

/-! ## Units -/

/-- After the version stands the pool, and then the other sections. -/
theorem Sections.drop_bytes (s : Sections) :
    s.bytes.drop 4 = s.pool ++ s.bytes.drop (4 + s.pool.length) := by
  have hversion : (Bytes.u16 minorVersion ++ Bytes.u16 majorVersion).length = 4 := rfl
  simp only [bytes, List.append_assoc, ← hversion, ← List.drop_drop]
  rw [← List.append_assoc (Bytes.u16 _), List.drop_left, List.drop_left]

/-- **The pool that was written is read again, exactly.**  What stands after the version in the
    bytes of a unit that is written anew is read as its pool, to the end of the section, with
    private namespaces numbered by their indices.  Tables and strings being small, the one thing
    that can keep it from being read is a type that is applied to too many parameters. -/
theorem Edit.pool_written {options : EncodeOptions} {unit later : CodeUnit} {bytes : Bytes}
    (ht : unit.isTampered = true) (he : encode options unit = .ok bytes later)
    (hsizes : ∀ n ∈ later.pool.sizes, n < countLimit)
    (hstrings : ∀ s ∈ later.pool.strings, (Utf8.encode s).length < countLimit) :
    ∃ plain order s rebuilt f, disassemble unit = .ok () plain ∧
      plain.Rebuilds options order s rebuilt ∧ s.bytes = bytes ∧ later.pool.Closed ∧
      Set.InjOn f {ns | ns ∈ later.pool.namespaces} ∧
      (∀ (i : Nat) ns, later.pool.namespaces[i]? = some ns → f ns = .ofKind ns.kind ns.name i) ∧
      ((∃ found, Reader.pool ⟨4, bytes.drop 4⟩ =
          .ok found ⟨4 + s.pool.length, bytes.drop (4 + s.pool.length)⟩ ∧
          later.pool.Corresponds f found) ↔
        ∀ base params, Multiname.applied base params ∈ later.pool.multinames →
          params.length < countLimit) := by
  obtain ⟨plain, order, s, rebuilt, hd, hr, rfl, rfl⟩ := rebuilds_of_encode ht he
  have closed := (CodeUnit.index_spec hr.index_eq).1
  have hnumbers := rebuilt.indexing.locates_onWire.namespaces
  obtain ⟨ok, fail⟩ := Reader.reads_pool closed hnumbers hr.pool 4
    (s.bytes.drop (4 + s.pool.length))
  rw [← s.drop_bytes] at ok fail
  refine ⟨plain, order, s, rebuilt, rebuilt.indexing.onWire.namespaces, hd, hr, hr.bytes_eq,
    closed.toPool, fun x hx y hy => rebuilt.indexing.injOn_onWire (List.mem_toArray.1 hx)
      (List.mem_toArray.1 hy),
    fun i ns hi => hnumbers i ns (List.getElem?_toArray.symm.trans hi), ?_⟩
  rw [← hr.bytes_eq]
  refine Iff.trans ⟨?_, ?_⟩ (closed.legible_toPool_iff hsizes hstrings)
  · rintro ⟨found, hread, -⟩
    by_contra hl
    obtain ⟨fault, cursor, hfault⟩ := fail hl
    cases hread.symm.trans hfault
  · exact fun hl => ⟨_, ok hl, Pool.corresponds_rename _ _⟩

/-- The private namespaces of the unit are numbered anew: the one with the number 2 is named
    first. -/
theorem pool_written_hiddenUnit : ∃ bytes later f,
    Edit.encode {} (hiddenUnit 2) = .ok bytes later ∧ f (hidden 2) = hidden 1 ∧
      f (hidden 1) = hidden 2 ∧
      ∃ found cursor, Reader.pool ⟨4, bytes.drop 4⟩ = .ok found cursor ∧
        later.pool.Corresponds f found := by
  have hok : ((Edit.encode {}).outcome (hiddenUnit 2)).isOk = true := by decide +kernel
  obtain ⟨bytes, he⟩ := Edit.exists_ok_of_outcome hok
  obtain ⟨hsizes, hstrings, hplain, hfirst, hsecond⟩ :
      let pool := ((Edit.encode {}).after (hiddenUnit 2)).pool
      (∀ n ∈ pool.sizes, n < countLimit) ∧
        (∀ s ∈ pool.strings, (Utf8.encode s).length < countLimit) ∧
        (∀ name ∈ pool.multinames, name.application? = none) ∧
        pool.namespaces[1]? = some (hidden 2) ∧ pool.namespaces[2]? = some (hidden 1) := by
    decide +kernel
  obtain ⟨plain, order, s, rebuilt, f, -, -, -, -, -, hf, hread⟩ :=
    Edit.pool_written (by decide +kernel) he hsizes hstrings
  obtain ⟨found, hread, hfound⟩ := hread.2 fun base params hm => by cases hplain _ hm
  exact ⟨bytes, _, f, he, hf 1 _ hfirst, hf 2 _ hsecond, found, _, hread, hfound⟩

/-! ## A pool that is written and cannot be read -/

/-- A type that is applied to `n` parameters. -/
def wideType (n : Nat) : Multiname := .applied .any (.replicate n .any)

/-- A unit with one method, which returns the type. -/
def wideUnit (n : Nat) : CodeUnit :=
  (Operation.createMethod { signature := { returnType := wideType n } }).run .empty

/-- The indices of the unit. -/
def wideIndexing (n : Nat) : Indexing where
  multinames := .ofList [.any, wideType n]
  methods := .ofList [⟨0⟩]

section
variable {n : Nat}

-- The list of parameters is never evaluated: all that is used of it is its length, and that each
-- of its members has an index.

theorem index_wideUnit : (wideUnit n).index false [] = .ok (wideIndexing n) := by
  let a : Indexing := { methods := .ofList [⟨0⟩] }
  have hany : Multiname.any ∈ a.multinames := by decide
  have hnew : .applied .any (.replicate n .any) ∉ a.multinames :=
    fun h => nomatch List.mem_singleton.1 h
  have hadd : a.addMultiname (wideType n) = wideIndexing n := by
    rw [wideType, Indexing.addMultiname, if_neg hnew, Indexing.addMultiname_of_mem hany,
      Indexing.addMultinames_of_subset fun name h => List.eq_of_mem_replicate h ▸ hany]
    rfl
  change Except.ok (a.addMultiname (wideType n)) = _
  rw [hadd]

/-- The pool of the unit holds the type and nothing else: six tables are empty, and the seventh
    has the count 2. -/
theorem poolBytes_wideIndexing (h : n < 0x40000000) : ∃ params, (wideIndexing n).poolBytes =
    .ok ([0, 0, 0, 0, 0, 0, 2, 0x1D, 0] ++ (Bytes.u32 (.ofNat n) ++ params)) := by
  obtain ⟨params, hparams⟩ : Succeeds ((List.replicate n Multiname.any).mapM fun p =>
      return Bytes.reference (← (wideIndexing n).multinameIndex p)) :=
    mapM_isOk.2 fun p hp => List.eq_of_mem_replicate hp ▸ ⟨[0], rfl⟩
  have hlist : Bytes.list (fun p => return Bytes.reference (← (wideIndexing n).multinameIndex p))
      (List.replicate n Multiname.any) = .ok (Bytes.u32 (.ofNat n) ++ params.flatten) := by
    rw [Bytes.list, List.length_replicate, Bytes.index, if_pos h, hparams]
    rfl
  have hentry : (wideIndexing n).multinameBytes (wideType n) =
      .ok (0x1D :: 0 :: (Bytes.u32 (.ofNat n) ++ params.flatten)) := by
    rw [Indexing.multinameBytes, wideType, Indexing.multinamePartBytes, hlist]
    rfl
  have htable : Bytes.table (wideIndexing n).multinameBytes [wideType n] =
      .ok (2 :: 0x1D :: 0 :: (Bytes.u32 (.ofNat n) ++ params.flatten)) := by
    rw [Bytes.table, List.mapM_cons, hentry]
    exact congrArg (fun bytes => Except.ok (2 :: 0x1D :: 0 :: bytes)) (List.append_nil _)
  refine ⟨params.flatten, ?_⟩
  change (Bytes.table (wideIndexing n).multinameBytes [wideType n]).map
    ([0, 0, 0, 0, 0, 0] ++ ·) = _
  rw [htable]
  rfl

theorem signatureBytes_wideType :
    Succeeds ((wideIndexing n).signatureBytes { returnType := wideType n }) := by
  refine (Indexing.succeeds_signatureBytes (fun use hu => ?_) fun m hm => ?_).2 (.inl rfl)
  · rcases List.mem_cons.1 hu with rfl | hu
    · exact List.mem_cons_of_mem _ (List.mem_singleton_self _)
    · cases List.mem_singleton.1 hu
      rintro _ ⟨⟩
  · have hcounts : Signature.counts { returnType := wideType n } = [0, 0] := rfl
    rw [hcounts] at hm
    revert m
    decide

theorem rebuilds_wideUnit (h : n < 0x40000000) : ∃ s rebuilt params,
    (wideUnit n).Rebuilds {} [] s rebuilt ∧ rebuilt.indexing = wideIndexing n ∧
      s.pool = [0, 0, 0, 0, 0, 0, 2, 0x1D, 0] ++ (Bytes.u32 (.ofNat n) ++ params) := by
  obtain ⟨params, hpool⟩ := poolBytes_wideIndexing h
  have hmethods : (wideUnit n).indexedMethods (wideIndexing n) =
      [(⟨0⟩, { returnType := wideType n })] := rfl
  have hcount : ((wideUnit n).indexedMethods (wideIndexing n)).length < countLimit := by
    rw [hmethods, List.length_singleton]
    decide
  obtain ⟨signatures, hsignatures⟩ : Succeeds (Bytes.list
      (fun entry => (wideIndexing n).signatureBytes (Prod.snd entry).toSignature)
      ((wideUnit n).indexedMethods (wideIndexing n))) :=
    (succeeds_list hcount).2 fun entry hm =>
      List.mem_singleton.1 (hmethods ▸ hm) ▸ signatureBytes_wideType
  exact ⟨⟨_, signatures, [0], [0], [0], [0]⟩, ⟨_, wideIndexing n, []⟩, params,
    ⟨rfl, index_wideUnit, hpool, hsignatures, rfl, rfl, rfl, rfl, rfl, rfl⟩, rfl, rfl⟩

theorem encode_wideUnit (h : n < 0x40000000) : ∃ bytes later rest,
    Edit.encode {} (wideUnit n) = .ok bytes later ∧ later.pool = (wideIndexing n).toPool ∧
      bytes.drop 4 = [0, 0, 0, 0, 0, 0, 2, 0x1D, 0] ++ (Bytes.u32 (.ofNat n) ++ rest) := by
  obtain ⟨s, rebuilt, params, hr, hindexing, hpool⟩ := rebuilds_wideUnit h
  have hd : Edit.disassemble (wideUnit n) = .ok () (wideUnit n) := rfl
  refine ⟨_, _, params ++ s.bytes.drop (4 + s.pool.length), Edit.encode_eq_ok.2 (.inr
    ⟨rfl, _, _, hd, CodeUnit.rebuild_eq_ok.2 ⟨_, _, hr⟩, rfl, rfl⟩),
    congrArg Indexing.toPool hindexing, ?_⟩
  rw [← hr.bytes_eq, s.drop_bytes, hpool]
  simp only [List.append_assoc]

end

/-- **A pool that is written and cannot be read.**  The unit can be reached and is written, its
    tables and strings are small, and reading its pool stops at the count of the parameters. -/
theorem Edit.pool_unreadable :
    Reachable (wideUnit countLimit) ∧ (wideUnit countLimit).isTampered = true ∧
      ∃ bytes later, encode {} (wideUnit countLimit) = .ok bytes later ∧
        (∀ n ∈ later.pool.sizes, n < countLimit) ∧
        (∀ s ∈ later.pool.strings, (Utf8.encode s).length < countLimit) ∧
        ∃ cursor, Reader.pool ⟨4, bytes.drop 4⟩ =
          .error (.malformed 13 (.packedRange 0x20000000)) cursor := by
  obtain ⟨bytes, later, rest, he, hpool, hbytes⟩ := encode_wideUnit (n := countLimit) (by decide)
  have hreachable : Reachable (wideUnit countLimit) := ReachableBy.step .empty trivial
  have hsizes : later.pool.sizes = [1, 1, 1, 1, 1, 1, 2] := by
    rw [hpool]
    rfl
  have hstrings : later.pool.strings = #[anyName] := by
    rw [hpool]
    rfl
  refine ⟨hreachable, rfl, bytes, later, he, ?_, ?_, ⟨18, rest⟩, ?_⟩
  · rw [hsizes]
    decide
  · rw [hstrings]
    decide
  · rw [hbytes]
    rfl

end ActionBytecode
