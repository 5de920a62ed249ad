/-
  ActionBytecode — what is written of a unit is read back.

  The sections of a unit are read back one after another (`reads_sections`): handles become the
  places of their methods and classes on the wire, private namespaces are numbered by their
  indices, and the code stays raw.  What was written can be read exactly when its counts and
  numbers are in range and its code can be disassembled (`succeeds_decode`).
-/
import ActionBytecode.CodeUnit.Decoding
import ActionBytecode.Proofs.Recovery

namespace ActionBytecode

/-! ## Bodies -/

/-- What was written of a body, as it is read. -/
def AssembledBody.asRead (r : Renaming) (written : AssembledBody) : Body where
  toFrame := written.frame.rename r
  code := .ofWire written.code (written.handlers.map (·.rename r))

/-- What was written of a body can be read. -/
def AssembledBody.Legible (written : AssembledBody) : Prop :=
  written.frame.Legible ∧ written.code.length < countLimit ∧
    written.handlers.length < countLimit ∧ ∀ handler ∈ written.handlers, handler.Legible

/-- The code of a method can be disassembled when it is read back. -/
def Method.LegibleCode (method : Method) (a : Indexing) (debug : Bool) : Prop :=
  ∀ body, method.body = some body →
    ∀ emissions, method.emissions body.code debug = .ok emissions →
      ∀ layout, layOut a 0 [] emissions = .ok layout → LegibleLayout layout

/-- Give a method the body that was read. -/
def receive (r : Renaming) (methods : Array Method) (written : AssembledBody) : Array Method :=
  methods.modify (r.methods written.method).index ({ · with body := some (written.asRead r) })

namespace Reader

section
variable {tables : Tables} {a : Indexing} {r : Renaming} (h : tables.Holds a r)
  (closed : a.Closed) {count : Nat} (hc : tables.metadataCount = count) (hs : count < countLimit)
include h closed hc hs

theorem reads_bodies : ∀ {written : List AssembledBody} {pieces : List Bytes},
    List.Forall₂ (fun body bs =>
      a.bodyBytes count (AssembledBody.method body) body.frame body.code body.handlers = .ok bs)
      written pieces →
    (∀ body ∈ written, ∀ t ∈ body.frame.traits, t.defaultsToGlobal = false) →
    (written.map fun body => (r.methods body.method).index).Nodup →
    ∀ methods : Array Method,
    (∀ body ∈ written, methods[(r.methods body.method).index]?.bind Method.body = none) →
    ∀ start, Reads (bodies tables written.length methods) start pieces.flatten
      (∀ body ∈ written, body.Legible) (written.foldl (receive r) methods) := by
  intro written pieces hw
  induction hw with
  | nil => exact fun _ _ methods _ start => reads_pure.of_eq rfl (by simp) rfl
  | @cons body bs written pieces hbs _ ih =>
    intro hg hn methods hfree start
    rw [List.forall_mem_cons] at hg hfree
    rw [List.map_cons, List.nodup_cons] at hn
    obtain ⟨i, more, hi, rfl, hbody⟩ := reads_body h closed hc hs hbs hg.1
    rw [List.flatten_cons, List.append_assoc, List.length_cons]
    have hlater : ∀ later ∈ written, (receive r methods body)[(r.methods later.method).index]?.bind
        Method.body = none := by
      intro later hl
      have hne : (r.methods body.method).index ≠ (r.methods later.method).index := fun he =>
        hn.1 (List.mem_map.2 ⟨later, hl, he.symm⟩)
      rw [receive, Array.getElem?_modify, if_neg hne]
      exact hfree.2 later hl
    refine Reads.of_eq (reads_offset.bind_free ((reads_method h hi start).bind_sure
      (Reads.bind (hbody _) fun _ => Reads.refuse fun _ =>
        ih hg.2 hn.2 (receive r methods body) hlater _))) rfl ?_ rfl
    rw [List.forall_mem_cons, hfree.1]
    simp [AssembledBody.Legible]

end

theorem reads_version (start : Nat) : Reads version start
    (Bytes.u16 minorVersion ++ Bytes.u16 majorVersion) True () := by
  refine (reads_u16 start minorVersion).bind_sure (Reads.bind_last (reads_u16 _ majorVersion) ?_)
  exact fun _ => reads_pure

end Reader

/-! ## Sections -/

theorem Namespace.ext_of_ofKind {kind kind' : NamespaceKind} {name name' : String} {i j : Nat}
    (h : ofKind kind name i = ofKind kind' name' j) :
    kind = kind' ∧ name = name' ∧ (kind = .privateMembers → i = j) := by
  obtain ⟨hk, hn, hi⟩ := Namespace.ext_iff.1 h
  refine ⟨hk, hn, fun hp => ?_⟩
  have hk : kind = kind' := hk
  subst hk
  simpa [ofKind, hp] using hi

namespace Indexing

/-- A renaming that puts everything where its index says. -/
structure Locates (a : Indexing) (r : Renaming) : Prop where
  namespaces : a.NumbersBy r.namespaces
  methods : ∀ {i handle}, a.methods.values[i]? = some handle → r.methods handle = ⟨i⟩
  classes : ∀ {i handle}, a.classes.values[i]? = some handle → r.classes handle = ⟨i⟩

/-- The renaming to indices. -/
def onWire (a : Indexing) : Renaming where
  namespaces ns := .ofKind ns.kind ns.name (a.namespaces.values.idxOf ns)
  methods handle := ⟨a.methods.values.idxOf handle⟩
  classes handle := ⟨a.classes.values.idxOf handle⟩

/-- The tables of what is read back. -/
def wireTables (a : Indexing) (f : Namespace → Namespace) (metadataCount : Nat) : Tables where
  pool := a.toPool.rename f
  method? i := if i < a.methods.size then some ⟨i⟩ else none
  class? i := if i < a.classes.size then some ⟨i⟩ else none
  metadataCount

theorem idxOf_of_getElem? {α : Type} [DecidableEq α] {numbering : Numbering α} {i : Nat} {x : α}
    (h : numbering.values[i]? = some x) : numbering.values.idxOf x = i := by
  obtain ⟨hi, rfl⟩ := List.getElem?_eq_some_iff.1 h
  exact numbering.nodup.idxOf_getElem i hi

theorem locates_onWire (a : Indexing) : a.Locates a.onWire where
  namespaces _ ns h := congrArg (Namespace.ofKind ns.kind ns.name) (idxOf_of_getElem? h)
  methods h := congrArg MethodHandle.mk (idxOf_of_getElem? h)
  classes h := congrArg ClassHandle.mk (idxOf_of_getElem? h)

theorem Locates.holds {a : Indexing} {r : Renaming} (h : a.Locates r) (metadataCount : Nat)
    (hl : a.toPool.Legible) (hm : a.methods.size < countLimit)
    (hc : a.classes.size < countLimit) :
    (a.wireTables r.namespaces metadataCount).Holds a r where
  constants := ⟨rfl, hl.sizes⟩
  method {i handle} hi := by
    have hlt : i < a.methods.size := (List.getElem?_eq_some_iff.1 hi).1
    simp only [h.methods hi, wireTables, if_pos hlt]
  classRef {i handle} hi := by
    have hlt : i < a.classes.size := (List.getElem?_eq_some_iff.1 hi).1
    simp only [h.classes hi, wireTables, if_pos hlt]
  methods_small := hm
  classes_small := hc

end Indexing

namespace CodeUnit

/-- The sections of a unit can be read. -/
structure LegibleSections (unit : CodeUnit) (rebuilt : Rebuilt) : Prop where
  pool : rebuilt.indexing.toPool.Legible
  methodCount : rebuilt.indexing.methods.size < countLimit
  signatures : ∀ entry ∈ unit.indexedMethods rebuilt.indexing, entry.2.toSignature.Legible
  metadataCount : unit.metadata.length < countLimit
  metadata : ∀ entry ∈ unit.metadata, entry.items.length < countLimit
  classCount : rebuilt.indexing.classes.size < countLimit
  classes : ∀ cls ∈ unit.indexedClasses rebuilt.indexing, cls.Legible
  scriptCount : unit.scripts.length < countLimit
  scripts : ∀ script ∈ unit.scripts, LegibleTraits script.traits
  bodyCount : rebuilt.bodies.length < countLimit
  bodies : ∀ body ∈ rebuilt.bodies, body.Legible

/-- The methods of a unit as they are read, before their bodies. -/
def readSignatures (unit : CodeUnit) (a : Indexing) (r : Renaming) : List Method :=
  (unit.indexedMethods a).map fun entry =>
    { entry.2.toSignature.rename r with sourceFile := none, body := none }

/-- The unit as it is read back. -/
def asRead (unit : CodeUnit) (rebuilt : Rebuilt) (r : Renaming) : CodeUnit :=
  let a := rebuilt.indexing
  { pool := a.toPool.rename r.namespaces
    methods := rebuilt.bodies.foldl (receive r) (unit.readSignatures a r).toArray
    methodOrder := (List.range a.methods.size).map MethodHandle.mk
    classes := ((unit.indexedClasses a).map (·.rename r)).toArray
    classOrder := (List.range a.classes.size).map ClassHandle.mk
    scripts := unit.scripts.map (·.rename r)
    metadata := unit.metadata.map Metadata.asRead
    nextPrivate := .ofNat (a.toPool.rename r.namespaces).namespaces.size }

section
variable {unit : CodeUnit} {options : EncodeOptions} {order : List ClassHandle} {s : Sections}
  {rebuilt : Rebuilt}

theorem map_filterMap_of_isSome {α β : Type} {f : α → Option β} {g : β → α} {xs : List α}
    (h : ∀ x ∈ xs, ∃ y, f x = some y ∧ g y = x) : (xs.filterMap f).map g = xs := by
  induction xs with
  | nil => rfl
  | cons x xs ih =>
    rw [List.forall_mem_cons] at h
    obtain ⟨⟨y, hy, hg⟩, h⟩ := h
    rw [List.filterMap_cons_some hy, List.map_cons, hg, ih h]

theorem map_fst_indexedMethods (hr : unit.Rebuilds options order s rebuilt) :
    (unit.indexedMethods rebuilt.indexing).map Prod.fst = rebuilt.indexing.methods.values := by
  refine map_filterMap_of_isSome fun handle hm => ?_
  obtain ⟨method, -, hmethod, -⟩ := (index_spec hr.index_eq).2.2.2 handle hm
  exact ⟨(handle, method), by rw [hmethod]; rfl, rfl⟩

/-- A method that has a body is on the wire where its index says. -/
theorem getElem?_of_assembled (hr : unit.Rebuilds options order s rebuilt) {body : AssembledBody}
    (hb : body ∈ rebuilt.bodies) {r : Renaming} (hl : rebuilt.indexing.Locates r) :
    rebuilt.indexing.methods.values[(r.methods body.method).index]? = some body.method := by
  obtain ⟨handle, method, hm, ha⟩ := (mem_assembleBodies hr.assembled).1 hb
  obtain ⟨_, _, _, _, -, -, -, rfl⟩ := assembleBody_eq_some.1 ha
  obtain ⟨i, hi⟩ := List.getElem?_of_mem (mem_indexedMethods.1 hm).1
  rw [hl.methods hi]
  exact hi

/-- No body that was written is for a method that another is for. -/
theorem nodup_received (hr : unit.Rebuilds options order s rebuilt) {r : Renaming}
    (hl : rebuilt.indexing.Locates r) :
    (rebuilt.bodies.map fun body => (r.methods body.method).index).Nodup := by
  have hn := List.Nodup.of_map _ (nodup_assembled hr.assembled)
  refine hn.map_on fun x hx y hy he => ?_
  have hxy := getElem?_of_assembled hr hx hl
  rw [he, getElem?_of_assembled hr hy hl] at hxy
  exact List.inj_on_of_nodup_map (nodup_assembled hr.assembled) hx hy
    (Option.some.inj hxy).symm

/-- The frame that is written is that of a method. -/
theorem exists_of_assembled (hr : unit.Rebuilds options order s rebuilt) {written : AssembledBody}
    (hw : written ∈ rebuilt.bodies) : ∃ method ∈ unit.methods, ∃ body,
      method.body = some body ∧ written.frame = body.toFrame := by
  obtain ⟨handle, method, hm, ha⟩ := (mem_assembleBodies hr.assembled).1 hw
  obtain ⟨body, _, _, _, hbody, -, -, rfl⟩ := assembleBody_eq_some.1 ha
  exact ⟨method, mem_methods_iff.2 ⟨handle, (mem_indexedMethods.1 hm).2⟩, body, hbody, rfl⟩

theorem body_readSignatures (a : Indexing) (r : Renaming) (i : Nat) :
    (unit.readSignatures a r).toArray[i]?.bind Method.body = none := by
  rw [List.getElem?_toArray, readSignatures, List.getElem?_map]
  cases (unit.indexedMethods a)[i]? <;> rfl

theorem size_foldl_receive (r : Renaming) (bodies : List AssembledBody) (methods : Array Method) :
    (bodies.foldl (receive r) methods).size = methods.size := by
  induction bodies generalizing methods with
  | nil => rfl
  | cons body bodies ih => rw [List.foldl_cons, ih, receive, Array.size_modify]

/-- **The sections of a unit are read back.** -/
theorem reads_sections (hr : unit.Rebuilds options order s rebuilt) (ho : unit.Ordered)
    (hg : ∀ t ∈ unit.allTraits, t.defaultsToGlobal = false) {r : Renaming}
    (hl : rebuilt.indexing.Locates r) :
    Reader.Reads Reader.sections 0 rebuilt.bytes (unit.LegibleSections rebuilt)
      (unit.asRead rebuilt r) := by
  obtain ⟨closed, -, -, -⟩ := index_spec hr.index_eq
  obtain ⟨length, instances, statics, hlength, hinstances, hstatics, hclasses⟩ :=
    Reader.classesBytes_eq_ok.1 hr.classes
  obtain ⟨bodyCount, hbodyCount, hbodies⟩ := bind_eq_ok.1 hr.bodies
  obtain ⟨pieces, hpieces, hbodies⟩ := bind_eq_ok.1 hbodies
  obtain ⟨hgc, hgs, hgb⟩ := (forall_allTraits ho).1 hg
  have hm := (length_indexedMethods ho hr.index_eq).trans
    (size_methods_of_index ho hr.index_eq).symm
  have hc := (length_indexedClasses ho hr.order_eq hr.index_eq).trans
    (size_classes_of_index ho hr.order_eq hr.index_eq).symm
  have htables : (⟨rebuilt.indexing.toPool.rename r.namespaces,
      fun i => if i < ((unit.indexedMethods rebuilt.indexing).map fun entry =>
        ({ entry.2.toSignature.rename r with
          sourceFile := none } : Signature)).length then some ⟨i⟩ else none,
      fun i => if i < (unit.indexedClasses rebuilt.indexing).length then some ⟨i⟩ else none,
      (unit.metadata.map Metadata.asRead).length⟩ : Tables) =
      rebuilt.indexing.wireTables r.namespaces unit.metadata.length := by
    rw [List.length_map, List.length_map, hm, hc]
    rfl
  rw [← hr.bytes_eq, Sections.bytes, ← hclasses, ← pure_eq_ok.1 hbodies]
  simp only [List.append_assoc]
  rw [← List.append_assoc (Bytes.u16 minorVersion), ← List.append_assoc instances.flatten]
  refine Reader.Reads.of_eq (p := rebuilt.indexing.toPool.Legible ∧
      ((unit.indexedMethods rebuilt.indexing).length < countLimit ∧
        ∀ entry ∈ unit.indexedMethods rebuilt.indexing, entry.2.toSignature.Legible) ∧
      (unit.metadata.length < countLimit ∧
        ∀ entry ∈ unit.metadata, entry.items.length < countLimit) ∧
      (unit.indexedClasses rebuilt.indexing).length < countLimit ∧
      (∀ cls ∈ unit.indexedClasses rebuilt.indexing, cls.Legible) ∧
      (unit.scripts.length < countLimit ∧
        ∀ script ∈ unit.scripts, LegibleTraits script.traits) ∧
      rebuilt.bodies.length < countLimit ∧ ∀ body ∈ rebuilt.bodies, body.Legible)
    ((Reader.reads_version 0).bind_sure
      (Reader.Reads.bind (Reader.reads_pool closed hl.namespaces hr.pool _) fun hpool => ?_))
    rfl ?_ rfl
  · have hholds : (rebuilt.indexing.toPool.rename r.namespaces).Holds rebuilt.indexing
        r.namespaces := ⟨rfl, hpool.sizes⟩
    refine Reader.Reads.bind (Reader.Reads.list hr.signatures
      (fun entry _ bs hbs start => Reader.reads_signature (r := r)
        hholds rfl hbs start) _) fun hsignatures => ?_
    refine Reader.Reads.bind (Reader.Reads.list hr.metadata
      (fun entry _ bs hbs start => Reader.reads_metadata hholds hbs start) _)
      fun hmetadata => ?_
    refine Reader.Reads.bind (Reader.reads_index hlength _) fun hcount => ?_
    dsimp only
    rw [htables, ← bind_assoc]
    have h : (rebuilt.indexing.wireTables r.namespaces unit.metadata.length).Holds rebuilt.indexing
        r :=
      hl.holds _ hpool (hm ▸ hsignatures.1) (hc ▸ hcount)
    refine Reader.Reads.bind (Reader.reads_classes h closed rfl hmetadata.1 hinstances hstatics
      (fun cls hcls => hgc cls ((mem_indexedClasses ho hr.order_eq hr.index_eq).1 hcls)) _)
      fun _ => ?_
    refine Reader.Reads.bind (Reader.Reads.list hr.scripts (fun script hs bs hbs start =>
      Reader.reads_script h closed rfl hmetadata.1 hbs (hgs script hs) start) _) fun _ => ?_
    refine Reader.Reads.bind (Reader.reads_index hbodyCount _) fun _ => ?_
    rw [List.map_map]
    refine Reader.Reads.of_eq (Reader.Reads.bind_pure (Reader.reads_bodies h closed rfl hmetadata.1
      (mapM_eq_ok.1 hpieces) (fun written hw => ?_) (nodup_received hr hl)
      (unit.readSignatures rebuilt.indexing r).toArray
      (fun written _ => body_readSignatures ..) _) _) rfl Iff.rfl ?_
    · obtain ⟨method, hmethod, body, hbody, hframe⟩ := exists_of_assembled hr hw
      rw [hframe]
      exact hgb method hmethod body hbody
    · rw [size_foldl_receive, List.length_map, hc, List.size_toArray, readSignatures,
        List.length_map, hm]
      rfl
  · rw [hm, hc]
    constructor
    · rintro ⟨h₁, ⟨h₂, h₃⟩, ⟨h₄, h₅⟩, h₆, h₇, ⟨h₈, h₉⟩, h₁₀, h₁₁⟩
      exact ⟨h₁, h₂, h₃, h₄, h₅, h₆, h₇, h₈, h₉, h₁₀, h₁₁⟩
    · rintro ⟨h₁, h₂, h₃, h₄, h₅, h₆, h₇, h₈, h₉, h₁₀, h₁₁⟩
      exact ⟨h₁, ⟨h₂, h₃⟩, ⟨h₄, h₅⟩, h₆, h₇, ⟨h₈, h₉⟩, h₁₀, h₁₁⟩

theorem run_unit (hr : unit.Rebuilds options order s rebuilt) (ho : unit.Ordered)
    (hg : ∀ t ∈ unit.allTraits, t.defaultsToGlobal = false) {r : Renaming}
    (hl : rebuilt.indexing.Locates r) :
    (unit.LegibleSections rebuilt → Reader.unit (.start rebuilt.bytes) =
      .ok (unit.asRead rebuilt r) ⟨rebuilt.bytes.length, []⟩) ∧
    (¬ unit.LegibleSections rebuilt →
      ∃ fault cursor, Reader.unit (.start rebuilt.bytes) = .error fault cursor) := by
  obtain ⟨ok, fail⟩ := reads_sections hr ho hg hl []
  rw [List.append_nil, Nat.zero_add] at ok
  rw [List.append_nil] at fail
  constructor
  · intro hlegible
    exact run_bind_of_ok (ok hlegible)
  · intro hlegible
    obtain ⟨fault, cursor, he⟩ := fail hlegible
    exact ⟨fault, cursor, run_bind_of_error he⟩

/-! ## Code -/

theorem tables_asRead (r : Renaming) :
    (unit.asRead rebuilt r).tables =
      rebuilt.indexing.wireTables r.namespaces unit.metadata.length := by
  unfold tables methodAt? classAt? asRead Indexing.wireTables
  simp only [getElem?_map_range, List.length_map]

/-- Each method is read back with the body that was written of it. -/
theorem getElem?_asRead (hr : unit.Rebuilds options order s rebuilt) {r : Renaming}
    (hl : rebuilt.indexing.Locates r) {i : Nat} {handle : MethodHandle} {method : Method}
    (hi : (unit.indexedMethods rebuilt.indexing)[i]? = some (handle, method)) : ∃ written,
      assembleBody rebuilt.indexing options.debugInstrumentation handle method = .ok written ∧
      (unit.asRead rebuilt r).methods[i]? =
        some { method.toSignature.rename r with
          sourceFile := none
          body := written.map (·.asRead r) } := by
  have hm := List.mem_of_getElem? hi
  have hvalue : rebuilt.indexing.methods.values[i]? = some handle := by
    rw [← map_fst_indexedMethods hr, List.getElem?_map, hi]
    rfl
  have hplace : (r.methods handle).index = i := congrArg MethodHandle.index (hl.methods hvalue)
  have hsignature : (unit.readSignatures rebuilt.indexing
      r).toArray[i]? =
      some { method.toSignature.rename r with
        sourceFile := none, body := none } := by
    rw [List.getElem?_toArray, readSignatures, List.getElem?_map, hi]
    rfl
  obtain ⟨written, hw⟩ := exists_assembleBody hr hm
  refine ⟨written, hw, ?_⟩
  cases written with
  | some written =>
    have hmem : written ∈ rebuilt.bodies :=
      (mem_assembleBodies hr.assembled).2 ⟨handle, method, hm, hw⟩
    obtain ⟨_, _, _, _, -, -, -, rfl⟩ := assembleBody_eq_some.1 hw
    have h : (unit.asRead rebuilt r).methods[i]? = _ :=
      hplace ▸ foldl_modify_of_mem rebuilt.bodies _ (nodup_received hr hl) hmem
    rw [h, hsignature]
    rfl
  | none =>
    have h : (unit.asRead rebuilt r).methods[i]? = _ :=
      foldl_modify_of_not_mem rebuilt.bodies _ fun written hmem hwi => ?_
    · rw [h, hsignature]
      rfl
    · obtain ⟨other, method', hm', hw'⟩ := (mem_assembleBodies hr.assembled).1 hmem
      obtain ⟨_, _, _, _, -, -, -, rfl⟩ := assembleBody_eq_some.1 hw'
      have hother := getElem?_of_assembled hr hmem hl
      rw [hwi, hvalue] at hother
      cases hother
      cases (mem_indexedMethods.1 hm).2.symm.trans (mem_indexedMethods.1 hm').2
      cases hw.symm.trans hw'

/-- The methods that are read back, in order. -/
theorem forall₂_asRead (hr : unit.Rebuilds options order s rebuilt) {r : Renaming}
    (hl : rebuilt.indexing.Locates r) :
    List.Forall₂ (fun entry read => ∃ written,
      assembleBody rebuilt.indexing options.debugInstrumentation entry.1 entry.2 = .ok written ∧
      { entry.2.toSignature.rename r with
        sourceFile := none
        body := written.map (·.asRead r) } = read)
      (unit.indexedMethods rebuilt.indexing) (unit.asRead rebuilt r).methods.toList := by
  rw [List.forall₂_iff_get]
  refine ⟨?_, fun i hi hi' => ?_⟩
  · simp [asRead, size_foldl_receive, readSignatures]
  · obtain ⟨written, hw, he⟩ := getElem?_asRead hr hl (List.getElem?_eq_getElem hi)
    refine ⟨written, hw, ?_⟩
    have hget : (unit.asRead rebuilt r).methods.toList.get ⟨i, hi'⟩ = _ :=
      (Array.getElem?_eq_some_iff.1 he).2
    exact hget.symm

theorem examine_isOk {tables : Tables} {a : Indexing} {r : Renaming} (h : tables.Holds a r)
    {debug : Bool} {handle : MethodHandle} {method : Method} {written : Option AssembledBody}
    (hw : assembleBody a debug handle method = .ok written)
    (hlength : ∀ body, written = some body → body.code.length < countLimit)
    (signature : Signature) (n : Nat) :
    (∃ examined m, Method.examine tables ⟨signature, written.map (·.asRead r)⟩ n =
      .ok examined m) ↔ method.LegibleCode a debug := by
  cases written with
  | none =>
    have hbody := assembleBody_eq_none.1 hw
    exact iff_of_true ⟨_, n, rfl⟩ fun body hb => by cases hbody.symm.trans hb
  | some written =>
    obtain ⟨body, emissions, code, handlers, hb, he, ha, rfl⟩ := assembleBody_eq_some.1 hw
    have hlimit : code.length < 0x100000000 := (hlength _ rfl).trans (by decide)
    obtain ⟨layout, -, -, hlayout, hd⟩ := disassemble_assembled h ha hlimit
    obtain ⟨ok, fail⟩ := hd n
    constructor
    · rintro ⟨examined, m, hx⟩ body' hb' emissions' he' layout' hlayout'
      cases hb.symm.trans hb'
      cases he.symm.trans he'
      cases hlayout.symm.trans hlayout'
      by_contra hl
      obtain ⟨fault, m', hf⟩ := fail hl
      cases hx.symm.trans (run_bind_of_error hf)
    · intro hl
      exact ⟨_, _, run_bind_of_ok (ok (hl body hb emissions he layout hlayout))⟩

/-- **The unit that is read back passes when its code is legible.** -/
theorem succeeds_examine_asRead (hr : unit.Rebuilds options order s rebuilt)
    (hl : unit.LegibleSections rebuilt) {r : Renaming} (hlocates : rebuilt.indexing.Locates r) :
    Succeeds (unit.asRead rebuilt r).examine ↔
      ∀ entry ∈ unit.indexedMethods rebuilt.indexing,
        entry.2.LegibleCode rebuilt.indexing options.debugInstrumentation := by
  have h : (rebuilt.indexing.wireTables r.namespaces unit.metadata.length).Holds rebuilt.indexing
      r :=
    hlocates.holds _ hl.pool hl.methodCount hl.classCount
  have hrun : Succeeds (unit.asRead rebuilt r).examine ↔ ∃ methods n,
      (unit.asRead rebuilt r).methods.toList.mapM
        (Method.examine (unit.asRead rebuilt r).tables) 0 = .ok methods n := by
    simp [Succeeds, examine_eq_ok]
  rw [hrun, tables_asRead]
  refine run_mapM_isOk (List.Forall₂.flip (forall₂_of_mem (forall₂_asRead hr hlocates) ?_)) 0
  rintro entry hm read ⟨written, hw, rfl⟩ n
  refine examine_isOk h hw (fun body hb => ?_) _ n
  rw [hb] at hw
  exact (hl.bodies body ((mem_assembleBodies hr.assembled).2 ⟨_, _, hm, hw⟩)).2.1

/-- **What was written can be read exactly when its sections and its code are legible.** -/
theorem succeeds_decode (hr : unit.Rebuilds options order s rebuilt) (ho : unit.Ordered)
    (hg : ∀ t ∈ unit.allTraits, t.defaultsToGlobal = false) :
    Succeeds (decode rebuilt.bytes) ↔
      unit.LegibleSections rebuilt ∧ ∀ entry ∈ unit.indexedMethods rebuilt.indexing,
        entry.2.LegibleCode rebuilt.indexing options.debugInstrumentation := by
  obtain ⟨ok, fail⟩ := run_unit hr ho hg rebuilt.indexing.locates_onWire
  by_cases hl : unit.LegibleSections rebuilt
  · rw [and_iff_right hl, ← succeeds_examine_asRead hr hl rebuilt.indexing.locates_onWire, decode,
      ok hl]
    exact succeeds_map
  · obtain ⟨fault, cursor, he⟩ := fail hl
    refine iff_of_false ?_ fun h => hl h.1
    rintro ⟨decoded, hd⟩
    obtain ⟨parsed, cursor', -, hp, -⟩ := decode_eq_ok.1 hd
    cases he.symm.trans hp

end

end CodeUnit

end ActionBytecode
