/-
  ActionBytecode — a unit that is written twice.

  After a unit was written it has the constants and the orders of the bytes.  Disassembled again it
  holds what it held (`restores_commit`), so writing it once more finds everything in the order in
  which it has its indices already, and gives the same bytes (`Edit.encode_again`).

  The tables of the unit need not be small enough for what was written to be read: an operand whose
  index is too large only keeps the code from being disassembled.
-/
import ActionBytecode.Proofs.Encodability
import ActionBytecode.Proofs.Recovery
import ActionBytecode.Proofs.Restoration

namespace ActionBytecode

/-! ## Nothing renamed -/

theorem DefaultValue.rename_id (value : DefaultValue) : value.rename id = value := by
  cases value <;> rfl

theorem Trait.rename_refl (t : Trait) : t.rename .refl = t := by
  have hv : (fun value : DefaultValue => value.rename id) = id := funext DefaultValue.rename_id
  obtain ⟨name, member, _⟩ := t
  cases member <;> simp [rename, Member.rename, Renaming.refl, Multiname.rename_id, hv]

theorem Trait.map_rename_refl (traits : List Trait) : traits.map (·.rename .refl) = traits := by
  rw [funext rename_refl, List.map_id']

theorem Frame.rename_refl (frame : Frame) : frame.rename .refl = frame := by
  rw [rename, Trait.map_rename_refl]

theorem Script.rename_refl (script : Script) : script.rename .refl = script := by
  rw [rename, Trait.map_rename_refl]
  rfl

theorem Multiname.map_rename_id (names : List Multiname) : names.map (·.rename id) = names := by
  rw [funext rename_id, List.map_id']

theorem ClassDefinition.rename_refl (cls : ClassDefinition) : cls.rename .refl = cls := by
  have hi : cls.interfaces.map (·.rename Renaming.refl.namespaces) = cls.interfaces :=
    Multiname.map_rename_id _
  simp only [rename, Trait.map_rename_refl, hi]
  simp [Renaming.refl, Multiname.rename_id]

theorem Signature.mirrors_refl (s : Signature) : s.Mirrors .refl s where
  name := rfl
  returnType := (Multiname.rename_id _).symm
  parameters := (Multiname.map_rename_id _).symm
  optional := by
    show _ = s.optional.map (·.rename id)
    rw [funext DefaultValue.rename_id, List.map_id']
  parameterNames := rfl
  flags := rfl

theorem NamespaceSet.aligned_id (set : NamespaceSet) : set.Aligned id := by
  rw [Aligned, rename_id, List.map_id]

/-! ## The tables of a unit that was written -/

theorem length_of_table {α : Type} {write : α → Except Fault Bytes} {entries : List α}
    {bytes : Bytes} (h : Bytes.table write entries = .ok bytes) :
    entries.length + 1 < 0x40000000 := by
  obtain ⟨count, hc, -⟩ := bind_eq_ok.1 h
  have hlt := (Reader.index_eq_ok.1 hc).1
  cases entries with
  | nil => exact Nat.lt_of_lt_of_le Nat.one_lt_two (by decide)
  | cons entry entries => exact hlt

theorem length_of_list {α : Type} {write : α → Except Fault Bytes} {members : List α}
    {bytes : Bytes} (h : Bytes.list write members = .ok bytes) :
    members.length < 0x40000000 := by
  obtain ⟨count, hc, -⟩ := bind_eq_ok.1 h
  exact (Reader.index_eq_ok.1 hc).1

/-- Constants that are written are not too many. -/
theorem Indexing.sizes_of_poolBytes {a : Indexing} {bytes : Bytes} (h : a.poolBytes = .ok bytes) :
    ∀ n ∈ a.toPool.sizes, n < 0x40000000 := by
  obtain ⟨_, hints, h⟩ := bind_eq_ok.1 h
  obtain ⟨_, huints, h⟩ := bind_eq_ok.1 h
  obtain ⟨_, hdoubles, h⟩ := bind_eq_ok.1 h
  obtain ⟨_, hstrings, h⟩ := bind_eq_ok.1 h
  obtain ⟨_, hnamespaces, h⟩ := bind_eq_ok.1 h
  obtain ⟨_, hsets, h⟩ := bind_eq_ok.1 h
  obtain ⟨_, hmultinames, -⟩ := bind_eq_ok.1 h
  have hints := length_of_table hints
  have huints := length_of_table huints
  have hdoubles := length_of_table hdoubles
  have hstrings := length_of_table hstrings
  have hnamespaces := length_of_table hnamespaces
  have hsets := length_of_table hsets
  have hmultinames := length_of_table hmultinames
  rw [List.length_tail] at hnamespaces hsets hmultinames
  simp only [Pool.sizes, toPool, List.size_toArray, List.length_cons, List.forall_mem_cons]
  refine ⟨hints, huints, hdoubles, hstrings, by omega, by omega, by omega, by simp⟩

namespace CodeUnit

section
variable {unit marked : CodeUnit} {options : EncodeOptions} {order : List ClassHandle}
  {s : Sections} {rebuilt : Rebuilt}

theorem shows_commit (ho : unit.Ordered) (hr : unit.Rebuilds options order s rebuilt) :
    (unit.commit rebuilt).tables.Shows rebuilt.indexing .refl where
  pool := (Pool.rename_id _).symm
  method h := h
  classRef h := h
  constants_small := Indexing.sizes_of_poolBytes hr.pool
  methods_small := by
    rw [size_methods_of_index ho hr.index_eq, ← length_indexedMethods ho hr.index_eq]
    exact length_of_list hr.signatures
  classes_small := by
    obtain ⟨count, hc, -⟩ := bind_eq_ok.1 hr.classes
    rw [size_classes_of_index ho hr.order_eq hr.index_eq,
      ← length_indexedClasses ho hr.order_eq hr.index_eq]
    exact length_of_list hc

/-! ## What the unit holds -/

/-- Each method has the bytes that were written of it. -/
theorem keeps_commit (hr : unit.Rebuilds options order s rebuilt) {handle : MethodHandle}
    (hi : handle ∈ rebuilt.indexing.methods) {method : Method}
    (hm : unit.method? handle = some method) :
    ∃ kept, (unit.commit rebuilt).method? handle = some kept ∧
      method.Keeps rebuilt.indexing .refl options.debugInstrumentation kept := by
  have hrebuild := rebuild_eq_ok.2 ⟨order, s, hr⟩
  cases hb : method.body with
  | none =>
    refine ⟨method, (commit_of_not_assembled fun written hw he => ?_).trans hm,
      method.toSignature.mirrors_refl, .inl ⟨hb, hb⟩⟩
    obtain ⟨body, -, hbody, -⟩ := assembled_of_mem hrebuild hw (he ▸ hm)
    cases hb.symm.trans hbody
  | some body =>
    obtain ⟨found, hfound, -⟩ := bind_eq_ok.1 hr.assembled
    obtain ⟨written?, -, hw⟩ := exists_mem_left (mapM_eq_ok.1 hfound).flip
      (mem_indexedMethods.2 ⟨hi, hm⟩)
    have hw : assembleBody _ _ handle method = _ := hw
    rw [assembleBody, hb] at hw
    obtain ⟨emissions, he, hw⟩ := bind_eq_ok.1 hw
    obtain ⟨⟨code, places⟩, ha, -⟩ := bind_eq_ok.1 hw
    have hmem : ⟨handle, body.toFrame, code, places⟩ ∈ rebuilt.bodies :=
      (mem_assembleBodies hr.assembled).2 ⟨handle, method, mem_indexedMethods.2 ⟨hi, hm⟩,
        assembleBody_eq_some.2 ⟨body, emissions, code, places, hb, he, ha, rfl⟩⟩
    refine ⟨_, (commit_of_assembled hrebuild hmem).trans (congrArg _ hm),
      method.toSignature.mirrors_refl, .inr ⟨body, emissions, code, places, hb, he, ha,
        length_assembled hrebuild hmem, ?_⟩⟩
    show method.body.map _ = _
    rw [hb, Frame.rename_refl, funext Handler.rename_refl, List.map_id']
    rfl

/-- **A unit that was written and is disassembled again holds what it held.** -/
theorem restores_commit (ho : unit.Ordered) (hr : unit.Rebuilds options order s rebuilt)
    (hd : Edit.disassemble (unit.commit rebuilt) = .ok () marked) :
    unit.Restores rebuilt.indexing .refl options.debugInstrumentation marked := by
  have hmethods (handle : MethodHandle) (hi : handle ∈ rebuilt.indexing.methods) (method : Method)
      (hm : unit.method? handle = some method) : ∃ restored, marked.method? handle = some restored ∧
        method.Restores rebuilt.indexing .refl options.debugInstrumentation restored := by
    obtain ⟨kept, hkept, hk⟩ := keeps_commit hr hi hm
    obtain ⟨restored, n, m, hrestored, hd⟩ := Edit.method?_of_disassemble hd hkept
    exact ⟨restored, hrestored, hk.restores (shows_commit ho hr) hd⟩
  obtain ⟨methods, next, hconverted, rfl⟩ := Edit.disassemble_eq_ok.1 hd
  refine ⟨?_, hmethods, (List.map_id _).symm, fun handle _ => ?_, ?_, rfl⟩
  · have hlength := (forall₂_of_run_mapM (R := fun _ _ => True) hconverted
      fun _ _ _ _ _ _ => trivial).length_eq
    rw [Array.length_toList] at hlength
    rw [List.size_toArray, ← hlength]
    exact size_foldl_replaceCode _ _
  · rw [funext ClassDefinition.rename_refl, Option.map_id']
    rfl
  · rw [funext Script.rename_refl, List.map_id']
    rfl

/-! ## The order of the classes -/

/-- The class that is named, if just one has the name. -/
theorem classNamed?_eq_some {name : String} {main : ClassHandle} {cls : ClassDefinition}
    (hmem : main ∈ unit.classOrder) (hcls : unit.class? main = some cls)
    (hname : cls.name.dotted? = some name)
    (hunique : ∀ handle other, unit.class? handle = some other →
      other.name.dotted? = some name → handle = main) :
    unit.classNamed? name = some main := by
  have hfound : (unit.classNamed? name).isSome := by
    rw [classNamed?, Option.isSome_map, List.find?_isSome]
    exact ⟨(main, cls), List.mem_filterMap.2 ⟨main, hmem, by rw [hcls]; rfl⟩, by simp [hname]⟩
  obtain ⟨handle, hhandle⟩ := Option.isSome_iff_exists.1 hfound
  obtain ⟨-, other, hother, ho⟩ := mem_of_classNamed? hhandle
  rw [hhandle, hunique handle other hother ho]

/-- A main class that is last already stays where it is. -/
theorem classOrderFor_again {mainClass : Option String}
    (hmain : ∀ name, mainClass = some name →
      ∃! handle, ∃ cls, unit.class? handle = some cls ∧ cls.name.dotted? = some name)
    (h : unit.classOrderFor mainClass = .ok order) (hclasses : marked.classes = unit.classes)
    (horder : marked.classOrder = (Numbering.ofList order).values) :
    marked.classOrderFor mainClass = .ok (Numbering.ofList order).values := by
  have hclass : marked.class? = unit.class? := by
    funext handle
    rw [class?, class?, hclasses]
  cases mainClass with
  | none => exact congrArg Except.ok horder
  | some name =>
    obtain ⟨main, ⟨cls, hcls, hname⟩, hunique⟩ := hmain name rfl
    rw [classOrderFor] at h
    cases hfound : unit.classNamed? name with
    | none => rw [hfound] at h; cases h
    | some handle =>
      obtain ⟨-, other, hother, ho⟩ := mem_of_classNamed? hfound
      obtain rfl : handle = main := hunique handle ⟨other, hother, ho⟩
      rw [hfound] at h
      cases h
      have hnot : handle ∉ (Numbering.ofList (unit.classOrder.filter (· ≠ handle))).values := by
        intro hm
        simpa using Numbering.mem_ofList.1 hm
      rw [Numbering.ofList_append_singleton, Numbering.values_register, if_neg hnot] at horder ⊢
      have hagain : marked.classNamed? name = some handle := by
        refine classNamed?_eq_some (by simp [horder]) (hclass ▸ hcls) hname ?_
        intro handle' other' hother' ho'
        exact hunique handle' ⟨other', hclass ▸ hother', ho'⟩
      have hfilter := List.filter_eq_self.2 fun other hm => decide_eq_true
        (ne_of_mem_of_not_mem hm hnot)
      simp only [classOrderFor, hagain, horder, List.filter_append, hfilter]
      simp

end

end CodeUnit

/-! ## Writing again -/

/-- With nothing renamed, everything has the index that it had. -/
theorem Indexing.Mirrors.toPool_eq {a b : Indexing} (h : a.Mirrors .refl b) :
    b.toPool = a.toPool := by
  have hn : b.namespaces.values = a.namespaces.values := h.namespaces.trans (List.map_id _)
  have hs : b.namespaceSets.values = a.namespaceSets.values := by
    rw [h.namespaceSets]
    exact (congrArg (List.map · _) (funext NamespaceSet.rename_id)).trans (List.map_id _)
  have hm : b.multinames.values = a.multinames.values :=
    h.multinames.trans (Multiname.map_rename_id _)
  rw [toPool, toPool, h.ints, h.uints, h.doubles, h.strings, hn, hs, hm]

/-- A unit that holds what was written, under the same names, is written as before. -/
theorem CodeUnit.Restores.rebuild_refl {unit other : CodeUnit} {options : EncodeOptions}
    {order : List ClassHandle} {s : Sections} {rebuilt : Rebuilt}
    (h : unit.Restores rebuilt.indexing .refl options.debugInstrumentation other)
    (hr : unit.Rebuilds options order s rebuilt)
    (horder : other.classOrderFor options.mainClass = .ok rebuilt.indexing.classes.values) :
    ∃ b bodies, other.rebuild options = .ok ⟨rebuilt.bytes, b, bodies⟩ ∧
      rebuilt.indexing.Mirrors .refl b := by
  obtain ⟨b, hb, hm⟩ := h.index (fun h => h) Renaming.faithful_refl (keepsOrder_id _) hr.index_eq
  have hpool : b.poolBytes = .ok s.pool := Indexing.follows_poolBytes Renaming.faithful_refl hm
    (fun set _ => set.aligned_id) _ hr.pool
  have hmap : rebuilt.indexing.classes.values.map Renaming.refl.classes =
      rebuilt.indexing.classes.values := List.map_id _
  obtain ⟨bodies, hrebuild⟩ := CodeUnit.Restores.rebuilds hr h (fun h => h) Renaming.faithful_refl
    hm (horder.trans (congrArg Except.ok hmap.symm)) hb hpool
  exact ⟨b, bodies, hr.bytes_eq ▸ hrebuild, hm⟩

/-- **Writing a unit twice gives the same bytes, the same constants and the same orders**, if the
    main class is the only one of its name.  Both times all code is left raw, with the constants
    that were written. -/
theorem Edit.encode_again {unit later marked : CodeUnit} {options : EncodeOptions} {bytes : Bytes}
    (hreachable : Reachable unit)
    (hmain : ∀ name, options.mainClass = some name →
      ∃! handle, ∃ cls, unit.class? handle = some cls ∧ cls.name.dotted? = some name)
    (ht : unit.isTampered) (he : encode options unit = .ok bytes later)
    (hm : markTampered later = .ok () marked) :
    (∃ final, encode options marked = .ok bytes final ∧ final.pool = later.pool ∧
      final.methodOrder = later.methodOrder ∧ final.classOrder = later.classOrder ∧
      ∀ method ∈ final.methods, method.isSymbolic = false) ∧
    (∀ method ∈ later.methods, method.isSymbolic = false) ∧
    ∃ plain order s rebuilt, disassemble unit = .ok () plain ∧
      plain.Rebuilds options order s rebuilt ∧ s.bytes = bytes ∧
      rebuilt.indexing.toPool = later.pool := by
  refine ⟨?_, isSymbolic_encode hreachable.ordered he, pool_of_encode ht he⟩
  have hcurrent := CodeUnit.current?_eq_none.2 ht
  rcases encode_eq_ok.1 he with ⟨hc, -⟩ | ⟨-, plain, rebuilt, hd, hrebuild, rfl, rfl⟩
  · cases hcurrent.symm.trans hc
  obtain ⟨order, s, hr⟩ := CodeUnit.rebuild_eq_ok.1 hrebuild
  obtain ⟨again, hagain, rfl⟩ := markTampered_eq_ok.1 hm
  have hkept := keeps_disassemble.of_ok hd
  have ho := hreachable.ordered.kept hkept
  have hclasses : (Numbering.ofList order).values = rebuilt.indexing.classes.values := by
    rw [(CodeUnit.index_spec hr.index_eq).2.1]
  -- the code is raw once it is written; what is disassembled of it restores what was there
  have hrestores : plain.Restores rebuilt.indexing .refl options.debugInstrumentation
      { again with written := none } :=
    have h := CodeUnit.restores_commit ho hr hagain
    ⟨h.size, h.methods, h.methodOrder, h.classes, h.scripts, h.metadata⟩
  have hplain := plain_of_disassemble hagain
  have hordered : CodeUnit.Ordered { again with written := none } :=
    have h := (ho.commit hrebuild).kept (keeps_disassemble.of_ok hagain)
    ⟨h.methods, h.classes⟩
  have hmain' : ∀ name, options.mainClass = some name →
      ∃! handle, ∃ cls, plain.class? handle = some cls ∧ cls.name.dotted? = some name := by
    obtain ⟨_, _, -, rfl⟩ := disassemble_eq_ok.1 hd
    exact hmain
  have horder : CodeUnit.classOrderFor { again with written := none } options.mainClass =
      .ok rebuilt.indexing.classes.values := by
    obtain ⟨_, _, -, rfl⟩ := disassemble_eq_ok.1 hagain
    exact hclasses ▸ CodeUnit.classOrderFor_again hmain' hr.order_eq rfl hclasses.symm
  obtain ⟨b, bodies, hagain, hm⟩ := hrestores.rebuild_refl hr horder
  refine ⟨_, encode_eq_ok.2 (.inr ⟨CodeUnit.current?_eq_none.2 rfl, _, _,
    disassemble_of_plain hplain, hagain, rfl, rfl⟩), hm.toPool_eq, ?_, ?_,
    fun method => CodeUnit.isSymbolic_commit hordered hagain⟩
  · exact hm.methods.trans (List.map_id _)
  · exact hm.classes.trans (List.map_id _)

/-! Two classes, the first of which is to be written last, and a method with jumps that is given
markers. -/

def pairUnit : CodeUnit :=
  [.createMethod {}, .createMethod { body := some { code := switchCode } },
    .createClass mainName (.platform .any) ⟨0⟩ ⟨1⟩,
    .createClass (.qualified false (.ofKind .package "p" 0) "Main") (.defined ⟨0⟩) ⟨0⟩ ⟨0⟩].foldl
      (fun unit (operation : Operation) => operation.run unit) .empty

/-- The two classes are written in the other order, and again in this one. -/
theorem encode_pairUnit_again : ∃ bytes later marked final,
    Edit.encode ⟨true, some "Main"⟩ pairUnit = .ok bytes later ∧
      Edit.markTampered later = .ok () marked ∧
      Edit.encode ⟨true, some "Main"⟩ marked = .ok bytes final ∧ final.pool = later.pool ∧
      final.methodOrder = later.methodOrder ∧ final.classOrder = later.classOrder ∧
      (∀ method ∈ final.methods, method.isSymbolic = false) ∧
      (∀ method ∈ later.methods, method.isSymbolic = false) ∧
      ∃ plain order s rebuilt, Edit.disassemble pairUnit = .ok () plain ∧
        plain.Rebuilds ⟨true, some "Main"⟩ order s rebuilt ∧ s.bytes = bytes ∧
        rebuilt.indexing.toPool = later.pool := by
  have hmain : ∃! handle, ∃ cls, pairUnit.class? handle = some cls ∧
      cls.name.dotted? = some "Main" := by
    refine ⟨⟨0⟩, ⟨_, rfl, by decide⟩, ?_⟩
    rintro ⟨i⟩ ⟨cls, hcls, hname⟩
    have hi : i < 2 := CodeUnit.lt_size_of_class? hcls
    have hother : (pairUnit.class? ⟨1⟩).map (·.name.dotted?) ≠ some (some "Main") := by decide
    interval_cases i
    · rfl
    · rw [hcls, Option.map_some, hname] at hother
      exact absurd rfl hother
  let rewrite : Edit Unit := do
    let _ ← Edit.encode ⟨true, some "Main"⟩
    Edit.markTampered
  cases hrun : rewrite pairUnit with
  | error fault left =>
    have hok : (match rewrite pairUnit with
      | .ok .. => true
      | .error .. => false) = true := by decide +kernel
    rw [hrun] at hok
    cases hok
  | ok _ marked =>
    obtain ⟨bytes, later, he, hm⟩ := run_bind_eq_ok.1 hrun
    obtain ⟨⟨final, hagain, hpool, hmethods, hclasses, hraw⟩, hleft⟩ :=
      Edit.encode_again (ReachableBy.foldl (fun _ _ _ => trivial) .empty)
        (fun name hn => by cases hn; exact hmain) (by decide) he hm
    exact ⟨bytes, later, marked, final, he, hm, hagain, hpool, hmethods, hclasses, hraw, hleft⟩

end ActionBytecode
