/-
  ActionBytecode — reading, writing and reading again.

  A unit that was read, had itself written anew and is read again comes back as it was, up to what
  the format does not keep: methods stand in the order of the wire, private namespaces are
  numbered by their index, instructions have other identities, and a method name or metadata key
  `*` is missing (`Edit.decode_rewritten`).  Code is compared once it is disassembled.
-/
import ActionBytecode.Proofs.Admission
import ActionBytecode.Proofs.Reencoding

namespace ActionBytecode

/-! ## What comes back -/

/-- The names after writing: private namespaces have other numbers, methods are known by their
    place in an order, and classes keep their names. -/
def Renaming.ofOrder (number : Nat → Nat) (order : List MethodHandle) : Renaming where
  namespaces := Namespace.renumber number
  methods handle := ⟨order.idxOf handle⟩
  classes := id

/-- The second method is the first one under other names.  Code is compared by the positions of
    its instructions once it is disassembled, each with its own tables. -/
structure Method.Matches (tables tables' : Tables) (r : Renaming) (method other : Method) :
    Prop where
  signature : other.toSignature = method.toSignature.rename r
  frame : other.body.map Body.toFrame = method.body.map (·.toFrame.rename r)
  code : ∀ body body', method.body = some body → other.body = some body' →
    ∀ n, ∃ code m code' m', body.code.disassemble tables n = .ok code m ∧
      body'.code.disassemble tables' n = .ok code' m' ∧
      code'.byPosition = (code.rename r).byPosition

/-- The second unit is the first one under other names, with its methods in a given order. -/
structure CodeUnit.Matches (r : Renaming) (order : List MethodHandle) (unit other : CodeUnit) :
    Prop where
  methods : List.Forall₂ (fun handle read => ∃ method, unit.method? handle = some method ∧
    method.Matches unit.tables other.tables r read) order other.methods.toList
  classes : other.classes = unit.classes.map (·.rename r)
  scripts : other.scripts = unit.scripts.map (·.rename r)
  metadata : other.metadata = unit.metadata.map Metadata.asRead

/-! ## Private namespaces -/

namespace Indexing

/-- The number of a private namespace on the wire, by the number that it had. -/
def privateNumber (a : Indexing) (id : Nat) : Nat :=
  match a.namespaces.values.findIdx? fun ns => ns.kind = .privateMembers ∧ ns.privateId = id with
  | some i => i
  | none => a.namespaces.size + id

theorem privateNumber_cases (a : Indexing) (id : Nat) :
    (∃ ns, a.namespaces.values[a.privateNumber id]? = some ns ∧ ns.kind = .privateMembers ∧
      ns.privateId = id) ∨
    (a.privateNumber id = a.namespaces.size + id ∧
      ∀ ns ∈ a.namespaces, ns.kind = .privateMembers → ns.privateId ≠ id) := by
  unfold privateNumber
  split
  · next i hi =>
    obtain ⟨hlt, hp, -⟩ := List.findIdx?_eq_some_iff_getElem.1 hi
    exact .inl ⟨_, List.getElem?_eq_getElem hlt, by simpa using hp⟩
  · next hi =>
    refine .inr ⟨rfl, fun ns hns hkind hid => ?_⟩
    have := List.findIdx?_eq_none_iff.1 hi ns hns
    simp [hkind, hid] at this

theorem privateNumber_injective (a : Indexing) : Function.Injective a.privateNumber := by
  intro x y h
  rcases a.privateNumber_cases x with ⟨ns, hx, -, rfl⟩ | ⟨hx, -⟩ <;>
  rcases a.privateNumber_cases y with ⟨ns', hy, -, rfl⟩ | ⟨hy, -⟩
  · rw [h] at hx
    rw [Option.some.inj (hx.symm.trans hy)]
  -- an index of the table on one side, a number past the table on the other
  · have := (List.getElem?_eq_some_iff.1 hx).1
    rw [Numbering.size] at hy
    omega
  · have := (List.getElem?_eq_some_iff.1 hy).1
    rw [Numbering.size] at hx
    omega
  · omega

/-- Private namespaces of a pool that was read are told apart by their numbers. -/
theorem eq_of_privateId {pool : Pool} {limit : Nat} (hp : pool.Sound limit) {x y : Namespace}
    (hx : x ∈ pool.namespaces) (hy : y ∈ pool.namespaces) (hkx : x.kind = .privateMembers)
    (hky : y.kind = .privateMembers) (h : x.privateId = y.privateId) : x = y := by
  have hplace {ns : Namespace} (hns : ns ∈ pool.namespaces) (hk : ns.kind = .privateMembers) :
      pool.namespaces[ns.privateId]? = some ns := by
    obtain ⟨i, hi⟩ := Array.mem_iff_getElem?.1 hns
    have hid : ns.privateId = i :=
      (congrArg Namespace.privateId (hp.numbers i ns hi)).trans (if_pos hk)
    rw [hid, hi]
  have hxy := hplace hx hkx
  rw [h, hplace hy hky] at hxy
  exact (Option.some.inj hxy).symm

theorem numbersBy_privateNumber {a : Indexing} {pool : Pool} {limit : Nat} (hp : pool.Sound limit)
    (h : a.Within pool) : a.NumbersBy (.renumber a.privateNumber) := by
  intro i ns hi
  have hmem : ns ∈ a.namespaces := List.mem_of_getElem? hi
  by_cases hk : ns.kind = .privateMembers
  · rcases a.privateNumber_cases ns.privateId with ⟨ns', hi', hk', hid⟩ | ⟨-, hnone⟩
    · have hsame := eq_of_privateId hp (h.namespaces ns' (List.mem_of_getElem? hi'))
        (h.namespaces ns hmem) hk' hk hid
      rw [hsame] at hi'
      rw [Namespace.renumber, ← idxOf_of_getElem? hi, ← idxOf_of_getElem? hi']
    · exact absurd rfl (hnone ns hmem hk)
  · simp only [Namespace.renumber, Namespace.ofKind, if_neg hk]

end Indexing

/-! ## Methods -/

theorem Code.byPosition_rename (r : Renaming) (code : Code) :
    (code.rename r).byPosition = code.byPosition.rename r := by
  have ho (f : InstructionId → InstructionId) (operand : Operand) :
      (operand.rename r).renumber f = (operand.renumber f).rename r := by
    cases operand <;> rfl
  cases code with
  | raw => rfl
  | symbolic instructions handlers =>
    simp only [rename, byPosition, List.map_map, Function.comp_def, Instruction.rename,
      Instruction.renumber, Handler.rename, Handler.map, ho]

theorem Code.sourceFile?_of_byPosition {r : Renaming} {code read : Code}
    (h : read.byPosition = (code.rename r).byPosition) : read.sourceFile? = code.sourceFile? := by
  rw [← read.sourceFile?_byPosition, h, sourceFile?_byPosition, sourceFile?_rename]

/-- A method with code comes back as it was when its code does, whatever identities the
    instructions get. -/
theorem Method.matches_of_code {tables tables' : Tables} {r : Renaming} {signature : Signature}
    {frame : Frame} {bytes bytes' : Bytes} {handlers handlers' : List (Handler CodePosition)}
    {found read : Code} {n m l k : Nat}
    (hfound : Code.disassemble tables (.raw bytes handlers) n = .ok found m)
    (hfile : signature.sourceFile = found.sourceFile?)
    (hback : ∀ n, ∃ code m, Code.disassemble tables' (.raw bytes' handlers') n = .ok code m ∧
      code.byPosition = (found.rename r).byPosition)
    (hread : Code.disassemble tables' (.raw bytes' handlers') l = .ok read k) :
    Method.Matches tables tables' r ⟨signature, some ⟨frame, .raw bytes handlers⟩⟩
      ⟨{ signature.rename r with sourceFile := read.sourceFile? },
        some ⟨frame.rename r, .raw bytes' handlers'⟩⟩ := by
  obtain ⟨_, _, hread', hposition⟩ := hback l
  cases hread.symm.trans hread'
  refine ⟨?_, rfl, fun body body' hb hb' n => ?_⟩
  · rw [Code.sourceFile?_of_byPosition hposition, ← hfile]
    rfl
  · cases hb
    cases hb'
    -- the code is known from some identity on either side, and is the same from any other
    obtain ⟨code₁, m₁, h₁, hp₁⟩ := Code.disassemble_at hfound n
    obtain ⟨code₂, m₂, h₂, hp₂⟩ := hback n
    refine ⟨code₁, m₁, code₂, m₂, h₁, h₂, ?_⟩
    rw [hp₂, Code.byPosition_rename, Code.byPosition_rename, hp₁]

/-- **A method comes back as it was.** -/
theorem Method.matches_of_examined {tables tables' : Tables} {a : Indexing} {r : Renaming}
    {limit n m : Nat} {method converted examined : Method} {handle : MethodHandle}
    {written : Option AssembledBody}
    (hraw : ∀ body, method.body = some body → ∃ bytes handlers, body.code = .raw bytes handlers)
    (hd : method.disassemble tables n = .ok converted m)
    (hs : converted.Sound tables (Code.IsFound tables limit)) (h : tables'.Holds a r)
    (hw : CodeUnit.assembleBody a false handle converted = .ok written)
    (hlength : ∀ body, written = some body → body.code.length < countLimit)
    (he : Method.Examined tables' { converted.toSignature.rename r with
      sourceFile := none
      body := written.map (·.asRead r) } examined) :
    method.Matches tables tables' r examined := by
  obtain ⟨signature, body⟩ := method
  cases body with
  | none =>
    cases hd
    have hfile : signature.sourceFile = none := hs.sourceFile
    cases written with
    | some written =>
      obtain ⟨body, -, -, -, hb, -⟩ := CodeUnit.assembleBody_eq_some.1 hw
      cases hb
    | none =>
      obtain ⟨-, rfl⟩ | ⟨body, -, -, -, hb, -⟩ := he
      · exact ⟨by simp only [Signature.rename, hfile], rfl, by simp⟩
      · cases hb
  | some body =>
    obtain ⟨frame, code⟩ := body
    obtain ⟨bytes, handlers, hcode⟩ := hraw _ rfl
    subst hcode
    obtain ⟨found, k, hfound, hd⟩ := run_bind_eq_ok.1 hd
    cases hd
    obtain ⟨instructions, placed, rfl, hcode⟩ := (hs.body _ rfl).code
    cases written with
    | none => cases CodeUnit.assembleBody_eq_none.1 hw
    | some written =>
      obtain ⟨_, _, code, places, hb, hemissions, hassemble, rfl⟩ :=
        CodeUnit.assembleBody_eq_some.1 hw
      cases hb
      cases hemissions
      obtain ⟨hb, -⟩ | ⟨_, read, l, l', hb, hread, rfl⟩ := he
      · cases hb
      · cases hb
        exact matches_of_code hfound hs.sourceFile
          (hcode.disassemble_again h hassemble (hlength _ rfl)) hread

/-! ## Units -/

theorem filterMap_range_getElem? {α : Type} (xs : Array α) :
    (List.range xs.size).filterMap (xs[·]?) = xs.toList := by
  have hmap : (List.range xs.size).map (xs[·]?) = xs.toList.map some := by
    refine List.ext_getElem (by simp) fun i hi _ => ?_
    have hi : i < xs.size := by simpa using hi
    simp [hi]
  calc (List.range xs.size).filterMap (xs[·]?)
      = ((List.range xs.size).map (xs[·]?)).filterMap id := by rw [List.filterMap_map]; rfl
    _ = xs.toList := by rw [hmap, List.filterMap_map]; exact List.filterMap_some

namespace CodeUnit

/-- The methods of a unit that was marked are those that it had, disassembled. -/
theorem method?_of_markTampered {unit marked : CodeUnit}
    (h : Edit.markTampered unit = .ok () marked) {handle : MethodHandle} {converted : Method}
    (hm : marked.method? handle = some converted) : ∃ method n m,
      unit.method? handle = some method ∧ method.disassemble unit.tables n = .ok converted m := by
  have hk := Edit.keeps_markTampered.of_ok h
  obtain ⟨plain, hd, rfl⟩ := Edit.markTampered_eq_ok.1 h
  have hlt := hk.methods ▸ lt_size_of_method? hm
  have hmethod : unit.method? handle = some unit.methods[handle.index] :=
    Array.getElem?_eq_getElem hlt
  obtain ⟨_, n, m, hlater, hc⟩ := Edit.method?_of_disassemble hd hmethod
  cases hlater.symm.trans hm
  exact ⟨_, n, m, hmethod, hc⟩

theorem forall_allTraits_of_markTampered {unit marked : CodeUnit} (ho : unit.Ordered)
    (h : Edit.markTampered unit = .ok () marked) {p : Trait → Prop}
    (hp : ∀ t ∈ unit.allTraits, p t) : ∀ t ∈ marked.allTraits, p t := by
  obtain ⟨plain, hd, rfl⟩ := Edit.markTampered_eq_ok.1 h
  exact forall_allTraits_of_disassemble ho hd hp

/-- A unit that was read is written with its classes in the order that they have. -/
theorem classes_of_rebuilds {bytes : Bytes} {unit marked : CodeUnit}
    (hd : decode bytes = .ok unit) (hmark : Edit.markTampered unit = .ok () marked)
    {order : List ClassHandle} {s : Sections} {rebuilt : Rebuilt}
    (hr : marked.Rebuilds {} order s rebuilt) :
    rebuilt.indexing.classes.values = (List.range unit.classes.size).map ClassHandle.mk := by
  obtain ⟨-, horder⟩ := orders_of_decode hd
  obtain ⟨-, hclasses, -⟩ := index_spec hr.index_eq
  obtain ⟨plain, hplain, rfl⟩ := Edit.markTampered_eq_ok.1 hmark
  obtain ⟨_, _, -, rfl⟩ := Edit.disassemble_eq_ok.1 hplain
  have hclassOrder : unit.classOrder = order := Except.ok.inj hr.order_eq
  rw [hclasses, ← hclassOrder, horder]
  exact Numbering.values_ofList (List.nodup_range.map fun _ _ h => congrArg ClassHandle.index h)

/-- The methods of a unit that was read are written in some order. -/
theorem perm_methods_of_rebuilds {bytes : Bytes} {unit marked : CodeUnit}
    (hd : decode bytes = .ok unit) (hmark : Edit.markTampered unit = .ok () marked)
    {order : List ClassHandle} {s : Sections} {rebuilt : Rebuilt}
    (hr : marked.Rebuilds {} order s rebuilt) :
    rebuilt.indexing.methods.values.Perm unit.methodOrder := by
  obtain ⟨horder, -⟩ := orders_of_decode hd
  have hnodup : unit.methodOrder.Nodup :=
    horder ▸ List.nodup_range.map fun _ _ h => congrArg MethodHandle.index h
  have ho := ordered_of_decode hd
  have hk := Edit.keeps_markTampered.of_ok hmark
  refine (List.perm_ext_iff_of_nodup rebuilt.indexing.methods.nodup hnodup).2 fun handle => ?_
  calc handle ∈ rebuilt.indexing.methods.values
      ↔ handle.index < marked.methods.size := mem_methods_of_index (ho.kept hk) hr.index_eq
    _ ↔ handle.index < unit.methods.size := by rw [hk.methods]
    _ ↔ handle ∈ unit.methodOrder := (ho.methods handle).symm

section
variable {unit marked read : CodeUnit} {limit : Nat} {order : List ClassHandle} {s : Sections}
  {rebuilt : Rebuilt} {r : Renaming}

/-- **What is read of a unit that was read and written matches it.** -/
theorem matches_decoded
    (hraw : ∀ method ∈ unit.methods, ∀ body, method.body = some body → body.code.IsRaw limit)
    (hmark : Edit.markTampered unit = .ok () marked) (ho : marked.Ordered)
    (hs : marked.Sound (Code.IsFound marked.tables limit) limit)
    (hr : marked.Rebuilds {} order s rebuilt)
    (hg : ∀ t ∈ marked.allTraits, t.defaultsToGlobal = false)
    (hl : rebuilt.indexing.Locates r)
    (hc : rebuilt.indexing.classes.values = (List.range unit.classes.size).map ClassHandle.mk)
    (hd : decode rebuilt.bytes = .ok read) :
    unit.Matches r rebuilt.indexing.methods.values read := by
  obtain ⟨plain, hplain, hmarked⟩ := Edit.markTampered_eq_ok.1 hmark
  obtain ⟨_, _, -, rfl⟩ := Edit.disassemble_eq_ok.1 hplain
  have htables : marked.tables = unit.tables := hmarked ▸ rfl
  obtain ⟨hlegible, methods, hexamined, rfl⟩ := decoded_eq hr ho hg hl hd
  have hholds : (marked.asRead rebuilt r).tables.Holds rebuilt.indexing r :=
    tables_asRead r ▸ hl.holds _ hlegible.pool hlegible.methodCount hlegible.classCount
  refine ⟨?_, ?_, ?_, ?_⟩
  · rw [← map_fst_indexedMethods hr, List.forall₂_map_left_iff]
    -- from the method as it was to what was written, and on to what was read of that
    refine forall₂_comp (forall₂_asRead hr hl) hexamined ?_
    rintro ⟨handle, converted⟩ hentry _ examined ⟨written, hw, rfl⟩ he
    obtain ⟨-, hconverted⟩ := mem_indexedMethods.1 hentry
    obtain ⟨method, k, m, hmethod, hdisassemble⟩ := method?_of_markTampered hmark hconverted
    have hsound := hs.methods converted (mem_methods_iff.2 ⟨handle, hconverted⟩)
    rw [htables] at hsound
    refine ⟨method, hmethod, Method.matches_of_examined (fun body hb => ?_) hdisassemble hsound
      hholds hw (fun body hbody => ?_) he⟩
    · obtain ⟨bytes, handlers, hcode, -⟩ :=
        hraw method (mem_methods_iff.2 ⟨handle, hmethod⟩) body hb
      exact ⟨bytes, _, hcode⟩
    · subst hbody
      have hmem : body ∈ rebuilt.bodies :=
        (mem_assembleBodies hr.assembled).2 ⟨handle, converted, hentry, hw⟩
      exact (hlegible.bodies body hmem).2.1
  · have hclasses : marked.indexedClasses rebuilt.indexing = unit.classes.toList := by
      rw [indexedClasses, hc, List.filterMap_map, ← hmarked]
      exact filterMap_range_getElem? unit.classes
    show ((marked.indexedClasses rebuilt.indexing).map (·.rename r)).toArray = _
    rw [hclasses]
    exact Array.ext' (by simp)
  · show marked.scripts.map (·.rename r) = _
    rw [← hmarked]
  · show marked.metadata.map Metadata.asRead = _
    rw [← hmarked]

end

end CodeUnit

theorem Indexing.locates_ofOrder {a : Indexing} {pool : Pool} {limit : Nat}
    (hp : pool.Sound limit) (h : a.Within pool) {size : Nat}
    (hc : a.classes.values = (List.range size).map ClassHandle.mk) :
    a.Locates (.ofOrder a.privateNumber a.methods.values) where
  namespaces := numbersBy_privateNumber hp h
  methods hi := congrArg MethodHandle.mk (idxOf_of_getElem? hi)
  classes {i handle} hi := by
    rw [hc, getElem?_map_range] at hi
    split at hi
    · exact (Option.some.inj hi).symm
    · cases hi

/-- **A unit that is read, written anew and read again comes back as it was**, with its methods in
    the order in which they were written, up to the numbers of private namespaces, the identities
    of instructions and the name `*`. -/
theorem Edit.decode_rewritten {bytes : Bytes} {unit : CodeUnit} (hl : bytes.length ≤ 2 ^ 20)
    (hd : CodeUnit.decode bytes = .ok unit)
    (hg : ∀ t ∈ unit.allTraits, t.defaultsToGlobal = false) :
    ∃ marked out later read number, markTampered unit = .ok () marked ∧
      encode {} marked = .ok out later ∧ CodeUnit.decode out = .ok read ∧
      Function.Injective number ∧ later.methodOrder.Perm unit.methodOrder ∧
      unit.Matches (.ofOrder number later.methodOrder) later.methodOrder read := by
  have hcount : bytes.length < countLimit := hl.trans_lt (by decide)
  have hunit := CodeUnit.ordered_of_decode hd
  obtain ⟨marked, hmark, hs⟩ := CodeUnit.sound_of_decode hcount hd
  have ho := hunit.kept (keeps_markTampered.of_ok hmark)
  have hg := CodeUnit.forall_allTraits_of_markTampered hunit hmark hg
  obtain ⟨rebuilt, hrebuild, read, hread⟩ := CodeUnit.succeeds_of_sound hs (by omega) ho hg
  obtain ⟨order, s, hr⟩ := CodeUnit.rebuild_eq_ok.1 hrebuild
  have hc := CodeUnit.classes_of_rebuilds hd hmark hr
  have hlocates := Indexing.locates_ofOrder hs.pool (CodeUnit.within_of_sound hs hr.index_eq) hc
  refine ⟨marked, rebuilt.bytes, marked.commit rebuilt, read, _, hmark, encode_eq_ok.2 (.inr
    ⟨?_, marked, rebuilt, disassemble_of_plain (CodeUnit.plain_of_sound hs), hrebuild, rfl, rfl⟩),
    hread, rebuilt.indexing.privateNumber_injective,
    CodeUnit.perm_methods_of_rebuilds hd hmark hr,
    CodeUnit.matches_decoded (CodeUnit.isRaw_of_decode hcount hd) hmark ho hs hr hg hlocates hc
      hread⟩
  obtain ⟨plain, -, rfl⟩ := markTampered_eq_ok.1 hmark
  exact CodeUnit.current?_eq_none.2 rfl

/-- A loop with a handler in a method that is written second, as the script runs the other one.
    The names that they use stand in two private namespaces `p`, and a metadata entry has the
    key `*`. -/
def loopingBytes : Bytes :=
  [16, 0, 46, 0] ++ [0, 0, 0, 3, 1, 42, 1, 112, 3, 5, 2, 5, 2, 0, 3, 7, 1, 2, 7, 2, 2] ++
    [2, 0, 1, 1, 0, 0, 2, 0, 0] ++ [1, 2, 1, 1, 2] ++ [0] ++ [1, 1, 1, 2, 0x40, 0, 1, 0, 1, 0] ++
    [1, 0, 1, 1, 0, 1, 6, 2, 0x10, 0xFB, 0xFF, 0xFF, 0x47, 1, 0, 5, 5, 1, 0, 0]

/-- The unit comes back with its two methods in the other order. -/
theorem Edit.decode_loopingBytes : ∃ unit marked out later read number,
    CodeUnit.decode loopingBytes = .ok unit ∧ markTampered unit = .ok () marked ∧
      encode {} marked = .ok out later ∧ CodeUnit.decode out = .ok read ∧
      Function.Injective number ∧ later.methodOrder = [⟨1⟩, ⟨0⟩] ∧
      unit.Matches (.ofOrder number later.methodOrder) later.methodOrder read := by
  have hok : (CodeUnit.decode loopingBytes).toOption.map (fun unit =>
      (unit.allTraits.all (!·.defaultsToGlobal),
        ((markTampered >>= fun _ => encode {}).after unit).methodOrder)) =
      some (true, [⟨1⟩, ⟨0⟩]) := by decide +kernel
  cases hd : CodeUnit.decode loopingBytes with
  | error fault =>
    rw [hd] at hok
    cases hok
  | ok unit =>
    rw [hd] at hok
    obtain ⟨hg, horder⟩ := Prod.mk.inj (Option.some.inj hok)
    obtain ⟨marked, out, later, read, number, hm, he, hread, hn, -, hsame⟩ :=
      decode_rewritten (by decide) hd (by simpa using hg)
    rw [after, run_bind_of_ok hm, he] at horder
    exact ⟨unit, marked, out, later, read, number, rfl, hm, he, hread, hn, horder, hsame⟩

end ActionBytecode
