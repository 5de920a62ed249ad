/-
  ActionBytecode — what is read from the bytes of a unit, written again.

  The unit that is read numbers methods, classes and private namespaces by their indices
  (`Indexing.reading`), and holds what was written (`CodeUnit.restores_decoded`).  It is written
  with the same indices.  Only the members of a namespace set can change their places, since they
  stand in the order of the numbers that private namespaces have (`Edit.encode_decoded_iff`).
-/
import ActionBytecode.Proofs.FixedPoint
import ActionBytecode.Proofs.Legibility

namespace ActionBytecode

/-! ## The names of what is read -/

/-- The number of a value, with numbers after the last for values without one. -/
def Numbering.place {α : Type} [DecidableEq α] (numbering : Numbering α) (other : α → Nat)
    (x : α) : Nat :=
  if x ∈ numbering then numbering.values.idxOf x else numbering.size + other x

namespace Numbering

variable {α : Type} [DecidableEq α] {numbering : Numbering α} {other : α → Nat} {x y : α} {i : Nat}

theorem place_of_getElem? (h : numbering.values[i]? = some x) : numbering.place other x = i := by
  have hx : x ∈ numbering := List.mem_of_getElem? h
  rw [place, if_pos hx]
  exact Indexing.idxOf_of_getElem? h

/-- Two values at one place are the same, or cannot be told apart by the given numbers. -/
theorem eq_of_place (h : numbering.place other x = numbering.place other y) :
    x = y ∨ other x = other y := by
  have hlt {z : α} (hz : z ∈ numbering) : numbering.values.idxOf z < numbering.size :=
    List.idxOf_lt_length_of_mem hz
  rw [place, place] at h
  -- values with a number stand below the size, all others past it
  by_cases hx : x ∈ numbering <;> by_cases hy : y ∈ numbering
  · rw [if_pos hx, if_pos hy] at h
    exact .inl ((List.idxOf_inj hx).1 h)
  · rw [if_pos hx, if_neg hy] at h
    have := hlt hx
    omega
  · rw [if_neg hx, if_pos hy] at h
    have := hlt hy
    omega
  · rw [if_neg hx, if_neg hy] at h
    exact .inr (by omega)

/-- What is made of the numbers is what the values become, if each becomes what its number says. -/
theorem map_range {α β : Type} {numbering : Numbering α} {make : Nat → β} {f : α → β}
    (h : ∀ {i x}, numbering.values[i]? = some x → f x = make i) :
    (List.range numbering.size).map make = numbering.values.map f := by
  apply List.ext_getElem?
  intro i
  rw [getElem?_map_range, List.getElem?_map]
  cases hi : numbering.values[i]? with
  | none => exact if_neg (Nat.not_lt.2 (List.getElem?_eq_none_iff.1 hi))
  | some x =>
    have hlt : i < numbering.size := (List.getElem?_eq_some_iff.1 hi).1
    rw [if_pos hlt, Option.map_some, h hi]

end Numbering

namespace Indexing

/-- The renaming to indices, with names of their own for things without an index. -/
def reading (a : Indexing) : Renaming where
  namespaces ns := .ofKind ns.kind ns.name (a.namespaces.place Namespace.privateId ns)
  methods handle := ⟨a.methods.place MethodHandle.index handle⟩
  classes handle := ⟨a.classes.place ClassHandle.index handle⟩

variable (a : Indexing)

theorem locates_reading : a.Locates a.reading where
  namespaces _ ns h := congrArg (Namespace.ofKind ns.kind ns.name) (Numbering.place_of_getElem? h)
  methods h := congrArg MethodHandle.mk (Numbering.place_of_getElem? h)
  classes h := congrArg ClassHandle.mk (Numbering.place_of_getElem? h)

theorem faithful_reading : a.reading.Faithful where
  kind _ := rfl
  name _ := rfl
  namespaces x y h := by
    obtain ⟨hk, hn, hp⟩ := Namespace.ext_of_ofKind h
    by_cases hx : x.kind = .privateMembers
    · rcases Numbering.eq_of_place (hp hx) with hxy | hid
      · exact hxy
      · exact Namespace.ext hk hn hid
    · refine Namespace.ext hk hn ?_
      rw [x.privateId_eq_zero hx, y.privateId_eq_zero (hk ▸ hx)]
  methods x y h := by
    rcases Numbering.eq_of_place (congrArg MethodHandle.index h) with hxy | hi
    · exact hxy
    · exact MethodHandle.index_injective hi
  classes x y h := by
    rcases Numbering.eq_of_place (congrArg ClassHandle.index h) with hxy | hi
    · exact hxy
    · exact ClassHandle.index_injective hi

end Indexing

/-! ## The order of members -/

/-- Numbers tell two namespaces apart in order only when nothing else does. -/
theorem Namespace.compare_ofKind {x y : Namespace} (h : compare x y = .lt) (i j : Nat) :
    compare (ofKind x.kind x.name i) (ofKind y.kind y.name j) = .lt ↔
      (x.kind = y.kind → x.name = y.name → i < j) := by
  rw [compare_def, Ordering.then_eq_lt, Ordering.then_eq_lt] at h ⊢
  rcases h with hrank | ⟨hrank, hname | ⟨hname, hid⟩⟩
  · refine iff_of_true (.inl hrank) fun hk => ?_
    rw [hk, Std.ReflOrd.compare_self] at hrank
    cases hrank
  · refine iff_of_true (.inr ⟨hrank, .inl hname⟩) fun _ hn => ?_
    rw [hn, Std.ReflOrd.compare_self] at hname
    cases hname
  · have hk := NamespaceKind.rank_injective (Std.LawfulEqOrd.compare_eq_iff_eq.1 hrank)
    have hn := Std.LawfulEqOrd.compare_eq_iff_eq.1 hname
    have hprivate : y.kind = .privateMembers := by
      by_contra hy
      rw [y.privateId_eq_zero hy] at hid
      simp [Nat.compare_eq_lt] at hid
    simp [ofKind, hk, hn, hprivate, Nat.compare_eq_lt]

namespace NamespaceSet

/-- Members that only their numbers tell apart stand in the order of the table. -/
def InOrderOf (table : List Namespace) (set : NamespaceSet) : Prop :=
  set.members.Pairwise fun x y => x.kind = y.kind → x.name = y.name → table.idxOf x < table.idxOf y

instance (table : List Namespace) (set : NamespaceSet) : Decidable (set.InOrderOf table) :=
  inferInstanceAs (Decidable (List.Pairwise _ _))

theorem aligned_iff {f : Namespace → Namespace} {set : NamespaceSet} :
    set.Aligned f ↔ set.members.Pairwise fun x y => compare (f x) (f y) = .lt := by
  have hmap : (set.members.map f).Pairwise (fun x y => compare x y = .lt) ↔ _ := List.pairwise_map
  rw [Aligned, ← hmap]
  constructor
  · intro h
    rw [← h]
    exact (set.rename f).ascending
  · refine fun h => eq_of_mem_iff (set.rename f).ascending h fun x => ?_
    rw [mem_rename, List.mem_map]

end NamespaceSet

namespace Indexing

variable (a : Indexing)

/-- Namespaces that got their numbers in ascending order still ascend as they are read. -/
theorem keepsOrder_reading : KeepsOrder a.reading.namespaces a.namespaces.values := by
  rw [KeepsOrder, List.pairwise_iff_getElem]
  intro i j hi hj hij h
  refine (Namespace.compare_ofKind h _ _).2 fun _ _ => ?_
  rw [Numbering.place_of_getElem? (List.getElem?_eq_getElem hi),
    Numbering.place_of_getElem? (List.getElem?_eq_getElem hj)]
  exact hij

/-- The members of a set keep their places when they are in the order of the table. -/
theorem aligned_reading {set : NamespaceSet} (hs : ∀ ns ∈ set.members, ns ∈ a.namespaces) :
    set.Aligned a.reading.namespaces ↔ set.InOrderOf a.namespaces.values := by
  have hplace {x : Namespace} (hx : x ∈ set.members) :
      a.namespaces.place Namespace.privateId x = a.namespaces.values.idxOf x := if_pos (hs x hx)
  have hpair {x y : Namespace} (hx : x ∈ set.members) (hy : y ∈ set.members)
      (h : compare x y = .lt) :
      compare (a.reading.namespaces x) (a.reading.namespaces y) = .lt ↔
        (x.kind = y.kind → x.name = y.name →
          a.namespaces.values.idxOf x < a.namespaces.values.idxOf y) := by
    rw [← hplace hx, ← hplace hy]
    exact Namespace.compare_ofKind h _ _
  rw [NamespaceSet.aligned_iff]
  constructor
  · exact fun h => (set.ascending.and h).imp_of_mem fun hx hy hxy => (hpair hx hy hxy.1).1 hxy.2
  · exact fun h => (set.ascending.and h).imp_of_mem fun hx hy hxy => (hpair hx hy hxy.1).2 hxy.2

end Indexing

/-! ## Sets on the wire -/

/-- Members in another order take up as many bytes. -/
theorem list_of_perm {α : Type} {write : α → Except Fault Bytes} {xs ys : List α} {bytes : Bytes}
    (hp : ys.Perm xs) (hw : Bytes.list write xs = .ok bytes) :
    ∃ bytes', Bytes.list write ys = .ok bytes' ∧ bytes'.length = bytes.length := by
  obtain ⟨count, hc, hw⟩ := bind_eq_ok.1 hw
  obtain ⟨pieces, hpieces, hw⟩ := bind_eq_ok.1 hw
  obtain ⟨pieces', hpieces', hperm⟩ := List.perm_comp_forall₂ hp (mapM_eq_ok.1 hpieces)
  refine ⟨count ++ pieces'.flatten, ?_, ?_⟩
  · rw [Bytes.list, hp.length_eq]
    exact bind_eq_ok.2 ⟨count, hc, bind_eq_ok.2 ⟨pieces', mapM_eq_ok.2 hpieces', rfl⟩⟩
  · rw [← pure_eq_ok.1 hw, List.length_append, List.length_append, hperm.flatten.length_eq]

/-- Pieces that take up as many bytes as others are the same in all if each of them is. -/
theorem exists_pieces {α γ : Type} {write : α → Except Fault Bytes}
    {write' : γ → Except Fault Bytes} {image : α → γ} {p : α → Prop} {xs : List α}
    {pieces : List Bytes} (hw : List.Forall₂ (fun x bs => write x = .ok bs) xs pieces)
    (h : ∀ x ∈ xs, ∀ bs, write x = .ok bs → ∃ bs', write' (image x) = .ok bs' ∧
      bs'.length = bs.length ∧ (bs' = bs ↔ p x)) :
    ∃ pieces', (xs.map image).mapM write' = .ok pieces' ∧
      pieces'.flatten.length = pieces.flatten.length ∧
      (pieces'.flatten = pieces.flatten ↔ ∀ x ∈ xs, p x) := by
  induction hw with
  | nil => exact ⟨[], rfl, rfl, by simp⟩
  | @cons x bs xs pieces hx _ ih =>
    rw [List.forall_mem_cons] at h
    obtain ⟨bs', hbs', hlength, hp⟩ := h.1 bs hx
    obtain ⟨pieces', hpieces', hlengths, hps⟩ := ih h.2
    refine ⟨bs' :: pieces', ?_, ?_, ?_⟩
    · rw [List.map_cons, List.mapM_cons]
      exact bind_eq_ok.2 ⟨bs', hbs', bind_eq_ok.2 ⟨pieces', hpieces', rfl⟩⟩
    · rw [List.flatten_cons, List.flatten_cons, List.length_append, List.length_append, hlength,
        hlengths]
    · rw [List.flatten_cons, List.flatten_cons, List.forall_mem_cons, ← hp, ← hps]
      constructor
      · exact fun he => List.append_inj he hlength
      · rintro ⟨rfl, he⟩
        rw [he]

namespace Indexing

section
variable {a b : Indexing} {r : Renaming} {bytes : Bytes} (hr : r.Faithful) (h : a.Mirrors r b)
include hr h

/-- A renamed set takes up as many bytes, and is written as before if its members stand in the
    same order. -/
theorem namespaceSetBytes_rename (hs : a.namespaces.values.length < countLimit)
    {set : NamespaceSet} (hset : set.members.length < countLimit)
    (hw : a.namespaceSetBytes set = .ok bytes) :
    ∃ bytes', b.namespaceSetBytes (set.rename r.namespaces) = .ok bytes' ∧
      bytes'.length = bytes.length ∧ (bytes' = bytes ↔ set.Aligned r.namespaces) := by
  have hperm : (set.rename r.namespaces).members.Perm (set.members.map r.namespaces) := by
    refine (List.perm_ext_iff_of_nodup (NamespaceSet.nodup _)
      (set.nodup.map hr.namespaces)).2 fun x => ?_
    rw [NamespaceSet.mem_rename, List.mem_map]
  have hmapped : Bytes.list (fun ns => return Bytes.reference (← b.namespaceIndex ns))
      (set.members.map r.namespaces) = .ok bytes :=
    Follows.list (fun ns => (follows_namespaceIndex h ns).bind_pure _) _ hw
  obtain ⟨bytes', hw', hlength⟩ := list_of_perm hperm hmapped
  refine ⟨bytes', hw', hlength, fun he => ?_, fun ha => ?_⟩
  · -- both lists of members are read from the same bytes
    subst he
    have htable : a.toPool.namespaces.map r.namespaces = b.toPool.namespaces.map id := by
      rw [Array.map_id, toPool, toPool, h.namespaces, List.map_toArray]
    have hs' : b.namespaces.values.length < countLimit := by rwa [h.namespaces, List.length_map]
    have hset' : (set.rename r.namespaces).members.length < countLimit := by
      rwa [hperm.length_eq, List.length_map]
    have hread := (Reader.reads_members (f := r.namespaces) rfl hs hw 0).ok hset []
    rw [(Reader.reads_members htable hs' hw' 0).ok hset' [], List.map_id] at hread
    exact (EStateM.Result.ok.inj hread).1
  · rw [ha] at hw'
    exact Except.ok.inj (hw'.symm.trans hmapped)

/-- A renamed pool can be written, and is written as before if the members of each set stand in the
    same order. -/
theorem poolBytes_rename (hl : a.toPool.Legible) (hw : a.poolBytes = .ok bytes) :
    ∃ bytes', b.poolBytes = .ok bytes' ∧ (bytes' = bytes ↔
      ∀ set ∈ a.namespaceSets.values.tail, set.Aligned r.namespaces) := by
  obtain ⟨ints, hints, hw⟩ := bind_eq_ok.1 hw
  obtain ⟨uints, huints, hw⟩ := bind_eq_ok.1 hw
  obtain ⟨doubles, hdoubles, hw⟩ := bind_eq_ok.1 hw
  obtain ⟨strings, hstrings, hw⟩ := bind_eq_ok.1 hw
  obtain ⟨namespaces, hnamespaces, hw⟩ := bind_eq_ok.1 hw
  obtain ⟨sets, hsets, hw⟩ := bind_eq_ok.1 hw
  obtain ⟨multinames, hmultinames, hw⟩ := bind_eq_ok.1 hw
  obtain ⟨count, hcount, hsets⟩ := bind_eq_ok.1 hsets
  obtain ⟨pieces, hpieces, hsets⟩ := bind_eq_ok.1 hsets
  have hsmall : a.namespaces.values.length < countLimit := by
    simpa [toPool] using hl.sizes a.toPool.namespaces.size (by simp [Pool.sizes])
  obtain ⟨pieces', hpieces', -, haligned⟩ := exists_pieces
    (p := NamespaceSet.Aligned r.namespaces) (mapM_eq_ok.1 hpieces) fun set hm bs hbs =>
      namespaceSetBytes_rename hr h hsmall
        (hl.sets set (by simpa [toPool] using List.mem_of_mem_tail hm)) hbs
  refine ⟨ints ++ uints ++ doubles ++ strings ++ namespaces ++ (count ++ pieces'.flatten) ++
    multinames, ?_, ?_⟩
  · rw [poolBytes, h.ints, h.uints, h.doubles, h.strings, h.namespaces, h.namespaceSets,
      h.multinames, ← List.map_tail, ← List.map_tail, ← List.map_tail]
    refine bind_eq_ok.2 ⟨ints, hints, bind_eq_ok.2 ⟨uints, huints, bind_eq_ok.2 ⟨doubles, hdoubles,
      bind_eq_ok.2 ⟨strings, hstrings, bind_eq_ok.2 ⟨namespaces, ?_, bind_eq_ok.2
        ⟨count ++ pieces'.flatten, ?_, bind_eq_ok.2 ⟨multinames, ?_, rfl⟩⟩⟩⟩⟩⟩⟩
    · exact Follows.table (fun ns _ => follows_namespaceBytes hr h ns) _ hnamespaces
    · rw [Bytes.table, List.isEmpty_map, List.length_map]
      exact bind_eq_ok.2 ⟨count, hcount, bind_eq_ok.2 ⟨pieces', hpieces', rfl⟩⟩
    · exact Follows.table (fun name _ => follows_multinameBytes h name) _ hmultinames
  · rw [← pure_eq_ok.1 hw, ← pure_eq_ok.1 hsets, ← haligned]
    simp

end

end Indexing

/-! ## The unit that is read -/

theorem Signature.mirrors_rename (r : Renaming) (signature : Signature) (file : Option String) :
    signature.Mirrors r { signature.rename r with sourceFile := file } where
  name := Indexing.spelled?_spelled? _
  returnType := rfl
  parameters := rfl
  optional := rfl
  parameterNames := rfl
  flags := rfl

theorem Metadata.asRead_asRead (entry : Metadata) : entry.asRead.asRead = entry.asRead := by
  simp only [asRead, List.map_map, Function.comp_def, Indexing.spelled?_spelled?]

namespace CodeUnit

section
variable {unit decoded : CodeUnit} {options : EncodeOptions} {order : List ClassHandle}
  {s : Sections} {rebuilt : Rebuilt} {r : Renaming}

theorem decoded_eq (hr : unit.Rebuilds options order s rebuilt) (ho : unit.Ordered)
    (hg : ∀ t ∈ unit.allTraits, t.defaultsToGlobal = false) (hl : rebuilt.indexing.Locates r)
    (hd : decode rebuilt.bytes = .ok decoded) : unit.LegibleSections rebuilt ∧ ∃ methods,
      List.Forall₂ (Method.Examined (unit.asRead rebuilt r).tables)
        (unit.asRead rebuilt r).methods.toList methods ∧
      { unit.asRead rebuilt r with
        methods := methods.toArray
        written := some rebuilt.bytes } = decoded := by
  have hlegible := ((succeeds_decode hr ho hg).1 ⟨decoded, hd⟩).1
  obtain ⟨parsed, cursor, methods, hparsed, hexamined, rfl⟩ := examined_of_decode hd
  cases hparsed.symm.trans ((run_unit hr ho hg hl).1 hlegible)
  exact ⟨hlegible, methods, hexamined, rfl⟩

/-- Each method is read with the bytes that were written of it, and these can be disassembled. -/
theorem keeps_decoded (hr : unit.Rebuilds options order s rebuilt) (ho : unit.Ordered)
    (hg : ∀ t ∈ unit.allTraits, t.defaultsToGlobal = false) (hl : rebuilt.indexing.Locates r)
    (hd : decode rebuilt.bytes = .ok decoded) {i : Nat} {handle : MethodHandle} {method : Method}
    (hi : (unit.indexedMethods rebuilt.indexing)[i]? = some (handle, method)) :
    ∃ kept, decoded.methods[i]? = some kept ∧
      method.Keeps rebuilt.indexing r options.debugInstrumentation kept ∧
      ∃ n converted m, kept.disassemble decoded.tables n = .ok converted m := by
  obtain ⟨-, methods, hall, rfl⟩ := decoded_eq hr ho hg hl hd
  obtain ⟨written, hw, hread⟩ := getElem?_asRead hr hl hi
  obtain ⟨kept, hkept, he⟩ := exists_getElem? hall ((Array.getElem?_toList ..).trans hread)
  obtain ⟨⟨file, rfl⟩, hdisassemble⟩ := he.exists_disassemble
  refine ⟨_, List.getElem?_toArray .. ▸ hkept, ⟨Signature.mirrors_rename r _ file, ?_⟩,
    hdisassemble⟩
  cases written with
  | none => exact .inl ⟨assembleBody_eq_none.1 hw, rfl⟩
  | some written =>
    have hmem : written ∈ rebuilt.bodies :=
      (mem_assembleBodies hr.assembled).2 ⟨handle, method, List.mem_of_getElem? hi, hw⟩
    have hlength := length_assembled (rebuild_eq_ok.2 ⟨order, s, hr⟩) hmem
    obtain ⟨body, emissions, code, places, hb, hemissions, ha, rfl⟩ := assembleBody_eq_some.1 hw
    exact .inr ⟨body, emissions, code, places, hb, hemissions, ha, hlength, rfl⟩

theorem getElem?_indexedMethods (hr : unit.Rebuilds options order s rebuilt) {i : Nat}
    {handle : MethodHandle} (hi : rebuilt.indexing.methods.values[i]? = some handle) :
    ∃ method, unit.method? handle = some method ∧
      (unit.indexedMethods rebuilt.indexing)[i]? = some (handle, method) := by
  rw [← map_fst_indexedMethods hr, List.getElem?_map] at hi
  obtain ⟨⟨_, method⟩, hentry, rfl⟩ := Option.map_eq_some_iff.1 hi
  exact ⟨method, (mem_indexedMethods.1 (List.mem_of_getElem? hentry)).2, hentry⟩

theorem forall₂_filterMap {α β : Type} {f : α → Option β} {xs : List α}
    (h : ∀ x ∈ xs, (f x).isSome) :
    List.Forall₂ (fun x y => f x = some y) xs (xs.filterMap f) := by
  induction xs with
  | nil => exact .nil
  | cons x xs ih =>
    rw [List.forall_mem_cons] at h
    obtain ⟨y, hy⟩ := Option.isSome_iff_exists.1 h.1
    rw [List.filterMap_cons_some hy]
    exact .cons hy (ih h.2)

/-- Each class is read where its index says. -/
theorem class?_asRead (hr : unit.Rebuilds options order s rebuilt) (ho : unit.Ordered)
    (hl : rebuilt.indexing.Locates r) {handle : ClassHandle}
    (hi : handle ∈ rebuilt.indexing.classes) :
    (unit.asRead rebuilt r).class? (r.classes handle) = (unit.class? handle).map (·.rename r) := by
  obtain ⟨i, hi⟩ := List.getElem?_of_mem hi
  have hall : List.Forall₂ (fun handle cls => unit.class? handle = some cls)
      rebuilt.indexing.classes.values (unit.indexedClasses rebuilt.indexing) :=
    forall₂_filterMap fun handle hm =>
      isSome_class?.2 ((mem_classes_of_index ho hr.order_eq hr.index_eq).1 hm)
  obtain ⟨cls, hcls, hc⟩ := exists_getElem? hall hi
  rw [hl.classes hi, hc, class?]
  show ((unit.indexedClasses rebuilt.indexing).map (·.rename r)).toArray[i]? = _
  rw [List.getElem?_toArray, List.getElem?_map, hcls]

theorem shows_decoded (hr : unit.Rebuilds options order s rebuilt) (ho : unit.Ordered)
    (hg : ∀ t ∈ unit.allTraits, t.defaultsToGlobal = false) (hl : rebuilt.indexing.Locates r)
    (hd : decode rebuilt.bytes = .ok decoded) : decoded.tables.Shows rebuilt.indexing r := by
  obtain ⟨hlegible, methods, -, rfl⟩ := decoded_eq hr ho hg hl hd
  show (unit.asRead rebuilt r).tables.Shows _ _
  rw [tables_asRead]
  exact (hl.holds _ hlegible.pool hlegible.methodCount hlegible.classCount).shows

theorem size_decoded (hr : unit.Rebuilds options order s rebuilt) (ho : unit.Ordered)
    (hg : ∀ t ∈ unit.allTraits, t.defaultsToGlobal = false)
    (hd : decode rebuilt.bytes = .ok decoded) :
    decoded.methods.size = (unit.indexedMethods rebuilt.indexing).length := by
  have hl := rebuilt.indexing.locates_onWire
  obtain ⟨-, methods, hall, rfl⟩ := decoded_eq hr ho hg hl hd
  rw [List.size_toArray, ← hall.length_eq, (forall₂_asRead hr hl).length_eq]

/-- The unit that is read can be disassembled. -/
theorem disassemble_decoded (hr : unit.Rebuilds options order s rebuilt) (ho : unit.Ordered)
    (hg : ∀ t ∈ unit.allTraits, t.defaultsToGlobal = false) (hl : rebuilt.indexing.Locates r)
    (hd : decode rebuilt.bytes = .ok decoded) :
    ∃ marked, Edit.disassemble decoded = .ok () marked := by
  have hmethod (method : Method) (hm : method ∈ decoded.methods.toList) (n : Nat) :
      ∃ converted m, method.disassemble decoded.tables n = .ok converted m := by
    obtain ⟨i, hi⟩ := List.getElem?_of_mem hm
    have hentry : i < (unit.indexedMethods rebuilt.indexing).length := by
      rw [← size_decoded hr ho hg hd, ← Array.length_toList]
      exact (List.getElem?_eq_some_iff.1 hi).1
    obtain ⟨kept, hkept, hk, n', converted, m, hc⟩ :=
      keeps_decoded hr ho hg hl hd (List.getElem?_eq_getElem hentry)
    rw [← Array.getElem?_toList, hi] at hkept
    cases hkept
    -- success does not hang on the identities, and it was seen from `n'` when the unit was read
    rcases hk.disassemble (shows_decoded hr ho hg hl hd) with hok | hfail
    · obtain ⟨restored, m', hrestored, -⟩ := hok n
      exact ⟨restored, m', hrestored⟩
    · obtain ⟨fault, m', hfault⟩ := hfail n'
      cases hc.symm.trans hfault
  obtain ⟨converted, next, hconverted, -⟩ := run_mapM_exists (S := fun _ _ => True)
    (List.forall₂_same.2 fun method hm n => by
      obtain ⟨converted, m, hc⟩ := hmethod method hm n
      exact ⟨converted, m, hc, trivial⟩) decoded.nextInstruction
  exact ⟨_, Edit.disassemble_eq_ok.2 ⟨converted, next, hconverted, rfl⟩⟩

/-- **The unit that is read can be disassembled, and then holds what was written.** -/
theorem restores_decoded (hr : unit.Rebuilds options order s rebuilt) (ho : unit.Ordered)
    (hg : ∀ t ∈ unit.allTraits, t.defaultsToGlobal = false) (hl : rebuilt.indexing.Locates r)
    (hd : decode rebuilt.bytes = .ok decoded) {marked : CodeUnit}
    (hm : Edit.disassemble decoded = .ok () marked) :
    unit.Restores rebuilt.indexing r options.debugInstrumentation marked := by
  have hmethods (handle : MethodHandle) (hi : handle ∈ rebuilt.indexing.methods) (method : Method)
      (hmethod : unit.method? handle = some method) :
      ∃ restored, marked.method? (r.methods handle) = some restored ∧
        method.Restores rebuilt.indexing r options.debugInstrumentation restored := by
    obtain ⟨i, hi⟩ := List.getElem?_of_mem hi
    obtain ⟨_, hmethod', hentry⟩ := getElem?_indexedMethods hr hi
    cases hmethod.symm.trans hmethod'
    obtain ⟨kept, hkept, hk, -⟩ := keeps_decoded hr ho hg hl hd hentry
    rw [hl.methods hi]
    have hkept : decoded.method? ⟨i⟩ = some kept := hkept
    obtain ⟨restored, n, m, hrestored, hc⟩ := Edit.method?_of_disassemble hm hkept
    exact ⟨restored, hrestored, hk.restores (shows_decoded hr ho hg hl hd) hc⟩
  have hsize := size_decoded hr ho hg hd
  obtain ⟨-, methods, -, rfl⟩ := decoded_eq hr ho hg hl hd
  obtain ⟨converted, next, hconverted, rfl⟩ := Edit.disassemble_eq_ok.1 hm
  refine ⟨?_, hmethods, ?_, fun handle hi => class?_asRead hr ho hl hi, rfl, ?_⟩
  · have hlength := (forall₂_of_run_mapM (R := fun _ _ => True) hconverted
      fun _ _ _ _ _ _ => trivial).length_eq
    rw [List.size_toArray, ← hlength, Array.length_toList, hsize,
      length_indexedMethods ho hr.index_eq]
  · exact Numbering.map_range fun hi => hl.methods hi
  · show (unit.metadata.map Metadata.asRead).map Metadata.asRead = _
    rw [List.map_map]
    exact List.map_congr_left fun entry _ => entry.asRead_asRead

end

end CodeUnit

/-! ## Writing what was read -/

theorem Sections.bytes_inj {s : Sections} {pool : Bytes} :
    { s with pool }.bytes = s.bytes ↔ pool = s.pool := by
  simp [bytes]

/-- The sets whose members keep their places, with the empty one. -/
theorem Indexing.forall_aligned {a : Indexing} (closed : a.Closed) :
    (∀ set ∈ a.namespaceSets.values.tail, set.Aligned a.reading.namespaces) ↔
      ∀ set ∈ a.toPool.namespaceSets, set.InOrderOf a.toPool.namespaces.toList := by
  have hcons := Reader.eq_cons_of_getElem?_zero closed.empty
  have hempty : NamespaceSet.empty.InOrderOf a.toPool.namespaces.toList := .nil
  have hmem (set : NamespaceSet) : set ∈ a.toPool.namespaceSets ↔ set ∈ a.namespaceSets.values := by
    simp [toPool]
  simp only [hmem]
  rw [hcons, List.tail_cons, List.forall_mem_cons, and_iff_right hempty]
  refine forall₂_congr fun set hm => a.aligned_reading fun ns hns => ?_
  exact closed.members set (List.mem_of_mem_tail hm) ns hns

/-- A unit that holds what was written, as it is read, is written again. -/
theorem CodeUnit.Restores.rebuild_reading {unit other : CodeUnit} {options : EncodeOptions}
    {order : List ClassHandle} {s : Sections} {rebuilt : Rebuilt}
    (h : unit.Restores rebuilt.indexing rebuilt.indexing.reading options.debugInstrumentation
      other)
    (hr : unit.Rebuilds options order s rebuilt) (hl : rebuilt.indexing.toPool.Legible)
    (horder : other.classOrder =
      rebuilt.indexing.classes.values.map rebuilt.indexing.reading.classes) :
    ∃ rewritten, other.rebuild {} = .ok rewritten ∧ (rewritten.bytes = rebuilt.bytes ↔
      ∀ set ∈ rebuilt.indexing.toPool.namespaceSets,
        set.InOrderOf rebuilt.indexing.toPool.namespaces.toList) := by
  have hf := rebuilt.indexing.faithful_reading
  have hdebug : ({} : EncodeOptions).debugInstrumentation = true →
      options.debugInstrumentation = true := fun h => absurd h Bool.false_ne_true
  obtain ⟨b, hb, hm⟩ := h.index hdebug hf rebuilt.indexing.keepsOrder_reading hr.index_eq
  obtain ⟨pool, hpool, haligned⟩ := Indexing.poolBytes_rename hf hm hl hr.pool
  obtain ⟨bodies, hrebuild⟩ := CodeUnit.Restores.rebuilds hr h hdebug hf hm
    (congrArg Except.ok horder) hb hpool
  refine ⟨_, hrebuild, ?_⟩
  rw [← hr.bytes_eq, Sections.bytes_inj, haligned]
  exact Indexing.forall_aligned (CodeUnit.index_spec hr.index_eq).1

/-- **What is read from the bytes of a unit can be written again.  It gives the same bytes exactly
    when the members of each set that only their numbers tell apart stand in the order of the
    namespace table.** -/
theorem Edit.encode_decoded_iff {unit later decoded : CodeUnit} {options : EncodeOptions}
    {bytes : Bytes} (hreachable : Reachable unit)
    (hg : ∀ t ∈ unit.allTraits, t.defaultsToGlobal = false) (ht : unit.isTampered)
    (he : encode options unit = .ok bytes later) (hd : CodeUnit.decode bytes = .ok decoded) :
    ∃ marked bytes' final, markTampered decoded = .ok () marked ∧
      encode {} marked = .ok bytes' final ∧ (bytes' = bytes ↔
        ∀ set ∈ later.pool.namespaceSets, set.InOrderOf later.pool.namespaces.toList) := by
  have hcurrent := CodeUnit.current?_eq_none.2 ht
  rcases encode_eq_ok.1 he with ⟨hc, -⟩ | ⟨-, plain, rebuilt, hplain, hrebuild, rfl, rfl⟩
  · cases hcurrent.symm.trans hc
  obtain ⟨order, s, hr⟩ := CodeUnit.rebuild_eq_ok.1 hrebuild
  have hkept := keeps_disassemble.of_ok hplain
  have ho := hreachable.ordered.kept hkept
  have hg := CodeUnit.forall_allTraits_of_disassemble hreachable.ordered hplain hg
  have hl := rebuilt.indexing.locates_reading
  obtain ⟨again, hagain⟩ := CodeUnit.disassemble_decoded hr ho hg hl hd
  have hrestores : plain.Restores rebuilt.indexing rebuilt.indexing.reading
      options.debugInstrumentation { again with written := none } :=
    have h := CodeUnit.restores_decoded hr ho hg hl hd hagain
    ⟨h.size, h.methods, h.methodOrder, h.classes, h.scripts, h.metadata⟩
  have hagainPlain := plain_of_disassemble hagain
  obtain ⟨hlegible, methods, -, hdecoded⟩ := CodeUnit.decoded_eq hr ho hg hl hd
  have horder : again.classOrder =
      rebuilt.indexing.classes.values.map rebuilt.indexing.reading.classes := by
    obtain ⟨_, _, -, rfl⟩ := disassemble_eq_ok.1 hagain
    rw [← hdecoded]
    exact Numbering.map_range fun hi => hl.classes hi
  obtain ⟨rewritten, hrewritten, hbytes⟩ := hrestores.rebuild_reading hr hlegible.pool horder
  exact ⟨_, _, _, markTampered_eq_ok.2 ⟨again, hagain, rfl⟩, encode_eq_ok.2 (.inr
    ⟨CodeUnit.current?_eq_none.2 rfl, _, _, disassemble_of_plain hagainPlain, hrewritten, rfl,
      rfl⟩), hbytes⟩

/-! A method that names a private namespace and then a set of it and another one of its name. -/

/-- The private namespace with a given number. -/
def hidden (id : Nat) : Namespace := .ofKind .privateMembers "p" id

/-- The unit of the method, the namespace with the number `first` named first. -/
def hiddenUnit (first : Nat) : CodeUnit :=
  [.createNamespace .privateMembers "p", .createNamespace .privateMembers "p",
    .createMethod {
      signature := {
        returnType := .qualified false (hidden first) "x"
        parameters := [.ambiguous false "x" (.ofList [hidden 1, hidden 2])] } }].foldl
      (fun unit (operation : Operation) => operation.run unit) .empty

/-- Write a unit, read it and write it again. -/
def Edit.rewrite : Edit (Bytes × Bytes) := do
  let bytes ← encode {}
  set (← ofExcept (CodeUnit.decode bytes))
  markTampered
  return (bytes, ← encode {})

theorem Edit.of_rewrite {unit final : CodeUnit} {bytes bytes' : Bytes}
    (h : rewrite unit = .ok (bytes, bytes') final) : ∃ later decoded marked,
      encode {} unit = .ok bytes later ∧ CodeUnit.decode bytes = .ok decoded ∧
        markTampered decoded = .ok () marked ∧ encode {} marked = .ok bytes' final := by
  obtain ⟨first, later, he, h⟩ := run_bind_eq_ok.1 h
  obtain ⟨decoded, _, hd, h⟩ := run_bind_eq_ok.1 h
  have h : (markTampered >>= fun _ => _) decoded = _ := h
  obtain ⟨_, marked, hm, h⟩ := run_bind_eq_ok.1 h
  obtain ⟨second, _, he', h⟩ := run_bind_eq_ok.1 h
  cases h
  cases hread : CodeUnit.decode bytes with
  | error fault =>
    rw [hread] at hd
    cases hd
  | ok parsed =>
    rw [hread] at hd
    cases hd
    exact ⟨later, decoded, marked, he, rfl, hm, he'⟩

/-- Named in the order of their numbers, the namespaces keep their order in the set. -/
theorem encode_hiddenUnit_decoded : ∃ bytes later decoded marked final,
    Edit.encode {} (hiddenUnit 1) = .ok bytes later ∧ CodeUnit.decode bytes = .ok decoded ∧
      Edit.markTampered decoded = .ok () marked ∧ Edit.encode {} marked = .ok bytes final := by
  cases hrun : Edit.rewrite (hiddenUnit 1) with
  | error fault final =>
    have hok : (match Edit.rewrite (hiddenUnit 1) with
      | .ok .. => true
      | .error .. => false) = true := by decide +kernel
    rw [hrun] at hok
    cases hok
  | ok p final =>
    obtain ⟨later, decoded, _, he, hd, -⟩ := Edit.of_rewrite hrun
    have hsets : ∀ set ∈ ((Edit.encode {}).after (hiddenUnit 1)).pool.namespaceSets,
        set.InOrderOf ((Edit.encode {}).after (hiddenUnit 1)).pool.namespaces.toList := by
      decide +kernel
    rw [Edit.after, he] at hsets
    obtain ⟨marked, bytes', final, hm, he', hbytes⟩ := Edit.encode_decoded_iff
      (ReachableBy.foldl (fun _ _ _ => trivial) .empty) (by decide) (by decide) he hd
    exact ⟨p.1, later, decoded, marked, final, he, hd, hm, hbytes.2 hsets ▸ he'⟩

/-! A method whose slot has the global namespace as its default, and one with code behind it.  The
default is written as no value and a tag that belongs to none, so the second body is read from the
tag on. -/

/-- Code with a string that is not found when it is read from one byte before. -/
def spilledCode : Code :=
  .symbolic (⟨⟨1⟩, .pushString, [.string "y"]⟩ ::
    (List.range' 2 6).map fun id => ⟨⟨id⟩, .nop, []⟩) []

/-- The default that is written as none. -/
def spilledTrait : Trait :=
  { name := .any, member := .slot .variable 0 .any (some (.nspace .global)) }

/-- The unit of the two methods, and of seven more. -/
def spilledUnit : CodeUnit :=
  [.createMethod {
      signature := { name := some "x" }
      body := some { code := .symbolic [⟨⟨0⟩, .returnVoid, []⟩] [] } },
    .createMethod { body := some { maxScopeDepth := 9, code := spilledCode } },
    .createMethod {}, .createMethod {}, .createMethod {}, .createMethod {}, .createMethod {},
    .createMethod {}, .createMethod {},
    .editFrame ⟨0⟩ fun frame => { frame with traits := [spilledTrait] }].foldl
      (fun unit (operation : Operation) => operation.run unit) .empty

theorem Edit.rewrite_ne {unit : CodeUnit}
    (h : (rewrite.run' unit).any (fun p => p.2 ≠ p.1) = true) :
    ∃ bytes later decoded marked bytes' final, encode {} unit = .ok bytes later ∧
      CodeUnit.decode bytes = .ok decoded ∧ markTampered decoded = .ok () marked ∧
      encode {} marked = .ok bytes' final ∧ bytes' ≠ bytes := by
  have h : (EStateM.run' (fun _ => rewrite unit) unit).any (fun p => p.2 ≠ p.1) = true := h
  cases hrun : rewrite unit with
  | error fault final =>
    rw [hrun] at h
    cases h
  | ok p final =>
    rw [hrun] at h
    obtain ⟨later, decoded, marked, he, hd, hm, he'⟩ := of_rewrite hrun
    exact ⟨p.1, later, decoded, marked, p.2, final, he, hd, hm, he', of_decide_eq_true h⟩

/-- Named in the other order, the namespaces change their places, and a default that spills over
    changes what is read. -/
theorem encode_decoded_ne :
    (∃ bytes later decoded marked bytes' final,
      Edit.encode {} (hiddenUnit 2) = .ok bytes later ∧ CodeUnit.decode bytes = .ok decoded ∧
        Edit.markTampered decoded = .ok () marked ∧ Edit.encode {} marked = .ok bytes' final ∧
        bytes' ≠ bytes) ∧
    ∃ bytes later decoded marked bytes' final,
      Edit.encode {} spilledUnit = .ok bytes later ∧ CodeUnit.decode bytes = .ok decoded ∧
        Edit.markTampered decoded = .ok () marked ∧ Edit.encode {} marked = .ok bytes' final ∧
        bytes' ≠ bytes :=
  ⟨Edit.rewrite_ne (by decide +kernel), Edit.rewrite_ne (by decide +kernel)⟩

end ActionBytecode
