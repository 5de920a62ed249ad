/-
  ActionBytecode — declarations read back.

  What is written of a value, a trait, a signature, a body, a class, a script or a metadata entry
  is read back as the renamed thing.  A declaration can be written and still not be read: its
  counts and numbers have to be in range, and a method cannot have more optional values than
  parameters.  `Trait.Legible`, `Signature.Legible` and so on say exactly when it can be read.

  The default of a slot is an exception.  The global namespace has index 0, and this index stands
  for no default, so what is written of it is not what is read (`Trait.defaultsToGlobal`).
-/
import ActionBytecode.Layout.Class
import ActionBytecode.Layout.Method
import ActionBytecode.Proofs.References

namespace ActionBytecode

/-! ## What can be read -/

/-- The number of the slot or of the place to dispatch. -/
def Member.number : Member → UInt32
  | .slot _ number _ _ | .access _ number _ | .classBinding number _ | .function number _ => number

/-- Whether the trait is a slot with the global namespace as its default. -/
def Trait.defaultsToGlobal (t : Trait) : Bool :=
  match t.member with
  | .slot _ _ _ (some (.nspace ns)) => ns = .global
  | _ => false

structure Trait.Legible (t : Trait) : Prop where
  number : IsU30 t.member.number
  metadata : t.metadata.length < countLimit

/-- A list of traits that can be read. -/
def LegibleTraits (traits : List Trait) : Prop :=
  traits.length < countLimit ∧ ∀ t ∈ traits, t.Legible

structure Signature.Legible (signature : Signature) : Prop where
  parameters : signature.parameters.length < countLimit
  optional : signature.optional.length ≤ signature.parameters.length

structure Frame.Legible (frame : Frame) : Prop where
  maxStack : IsU30 frame.maxStack
  localCount : IsU30 frame.localCount
  initScopeDepth : IsU30 frame.initScopeDepth
  maxScopeDepth : IsU30 frame.maxScopeDepth
  traits : LegibleTraits frame.traits

/-- The places of a handler can be read. -/
def Handler.Legible (handler : Handler UInt32) : Prop := ∀ place ∈ handler.places, IsU30 place

structure ClassDefinition.Legible (cls : ClassDefinition) : Prop where
  interfaces : cls.interfaces.length < countLimit
  instanceTraits : LegibleTraits cls.instanceTraits
  staticTraits : LegibleTraits cls.staticTraits

instance : DecidablePred Trait.Legible := fun t =>
  decidable_of_iff (IsU30 t.member.number ∧ t.metadata.length < countLimit)
    ⟨fun ⟨h₁, h₂⟩ => ⟨h₁, h₂⟩, fun ⟨h₁, h₂⟩ => ⟨h₁, h₂⟩⟩

instance : DecidablePred LegibleTraits := fun traits =>
  inferInstanceAs (Decidable (traits.length < countLimit ∧ ∀ t ∈ traits, t.Legible))

instance : DecidablePred Signature.Legible := fun signature =>
  decidable_of_iff (signature.parameters.length < countLimit ∧
    signature.optional.length ≤ signature.parameters.length)
    ⟨fun ⟨h₁, h₂⟩ => ⟨h₁, h₂⟩, fun ⟨h₁, h₂⟩ => ⟨h₁, h₂⟩⟩

instance : DecidablePred Frame.Legible := fun frame =>
  decidable_of_iff (IsU30 frame.maxStack ∧ IsU30 frame.localCount ∧ IsU30 frame.initScopeDepth ∧
    IsU30 frame.maxScopeDepth ∧ LegibleTraits frame.traits)
    ⟨fun ⟨h₁, h₂, h₃, h₄, h₅⟩ => ⟨h₁, h₂, h₃, h₄, h₅⟩,
      fun ⟨h₁, h₂, h₃, h₄, h₅⟩ => ⟨h₁, h₂, h₃, h₄, h₅⟩⟩

instance : DecidablePred ClassDefinition.Legible := fun cls =>
  decidable_of_iff (cls.interfaces.length < countLimit ∧ LegibleTraits cls.instanceTraits ∧
    LegibleTraits cls.staticTraits)
    ⟨fun ⟨h₁, h₂, h₃⟩ => ⟨h₁, h₂, h₃⟩, fun ⟨h₁, h₂, h₃⟩ => ⟨h₁, h₂, h₃⟩⟩

/-! ## Bits -/

theorem MethodFlags.ofByte_byte (flags : MethodFlags) (optional names : Bool) :
    ofByte (flags.byte optional names) = flags ∧
      (flags.byte optional names &&& 0x08 ≠ 0 ↔ optional = true) ∧
      (flags.byte optional names &&& 0x80 ≠ 0 ↔ names = true) := by
  obtain ⟨a, b, c, d, e, f⟩ := flags
  revert a b c d e f optional names
  decide

theorem ClassFlags.ofByte_byte (flags : ClassFlags) (isProtected : Bool) :
    ofByte (flags.byte isProtected) = flags ∧
      (flags.byte isProtected &&& 0x08 ≠ 0 ↔ isProtected = true) := by
  obtain ⟨a, b, c⟩ := flags
  revert a b c isProtected
  decide

/-- The tag and the attributes of a trait take up different bits. -/
theorem Trait.bits_tag (t : Trait) :
    ((t.member.kind.tag ||| t.attributeBits) &&& 0x0f = t.member.kind.tag) ∧
      ((t.member.kind.tag ||| t.attributeBits) &&& 0x40 ≠ 0 ↔ t.metadata ≠ []) ∧
      decide ((t.member.kind.tag ||| t.attributeBits) &&& 0x10 ≠ 0) = t.isFinal ∧
      decide ((t.member.kind.tag ||| t.attributeBits) &&& 0x20 ≠ 0) = t.isOverride := by
  have key : ∀ (tag : UInt8) (isFinal isOverride isEmpty : Bool),
      tag ∈ MemberKind.all.map MemberKind.tag →
      let bits := tag ||| ((if isFinal then 0x10 else 0) ||| (if isOverride then 0x20 else 0) |||
        (if isEmpty then 0 else 0x40))
      bits &&& 0x0f = tag ∧ (bits &&& 0x40 ≠ 0 ↔ isEmpty = false) ∧
        decide (bits &&& 0x10 ≠ 0) = isFinal ∧ decide (bits &&& 0x20 ≠ 0) = isOverride := by
    intro tag isFinal isOverride isEmpty htag
    revert isFinal isOverride isEmpty
    simp only [MemberKind.all, List.map_cons, List.map_nil, List.mem_cons, List.not_mem_nil,
      or_false] at htag
    rcases htag with rfl | rfl | rfl | rfl | rfl | rfl | rfl <;> decide
  have hmem : t.member.kind.tag ∈ MemberKind.all.map MemberKind.tag := by
    cases t.member.kind with
    | slot kind => cases kind <;> decide
    | access kind => cases kind <;> decide
    | classBinding => decide
    | function => decide
  have h := key t.member.kind.tag t.isFinal t.isOverride t.metadata.isEmpty hmem
  rwa [List.isEmpty_eq_false_iff] at h

/-- The namespace of protected members, and what is written after it. -/
theorem Indexing.protected_bind_eq_ok {a : Indexing} {ns : Option Namespace}
    {f : Bytes → Except Fault Bytes} {bytes : Bytes} :
    (match ns with
      | some ns => Bytes.reference <$> a.namespaceIndex ns >>= f
      | none => pure [] >>= f) = .ok bytes ↔
    ∃ first, (match ns with
      | some ns => Bytes.reference <$> a.namespaceIndex ns
      | none => pure []) = .ok first ∧ f first = .ok bytes := by
  cases ns <;> exact bind_eq_ok

/-! ## Values -/

/-- A literal and a value without a table have an index above 0, and so has every namespace but
    the global one. -/
theorem Indexing.valueIndex_ne_zero {a : Indexing} (closed : a.Closed) {value : DefaultValue}
    {i : Nat} (hi : a.valueIndex value = .ok i) (hg : value ≠ .nspace .global) : i ≠ 0 := by
  rintro rfl
  cases value with
  | int | uint | double | text =>
    obtain ⟨j, -, hj⟩ := bind_eq_ok.1 hi
    cases hj
  | nspace ns =>
    have hns := closed.global.symm.trans (Numbering.id_eq_ok.1 hi)
    cases hns
    exact hg rfl
  | truth value => cases value <;> cases hi
  | null | undefined => cases hi

namespace Reader

section
variable {tables : Tables} {indexing : Indexing} {f : Namespace → Namespace} {bytes : Bytes}
  (h : tables.pool.Holds indexing f)
include h

theorem reads_valueOf {value : DefaultValue} {i : Nat} (hi : indexing.valueIndex value = .ok i)
    (source start : Nat) : i < countLimit ∧
      Reads (valueOf tables source i value.kind.byte) start [] True (value.rename f) := by
  have constant {α : Type} {table : Array α} {a : α} (ht : table[i]? = some a)
      (make : α → DefaultValue) : Reads (require table[i]? source (.indexRange .value i) >>=
        fun a => pure (make a)) start [] True (make a) := by
    rw [ht]
    exact reads_pure
  unfold valueOf
  rw [ValueKind.ofByte?_byte]
  cases value with
  | int => exact ⟨(h.int hi).1, constant (h.int hi).2 .int⟩
  | uint => exact ⟨(h.uint hi).1, constant (h.uint hi).2 .uint⟩
  | double => exact ⟨(h.double hi).1, constant (h.double hi).2 .double⟩
  | text => exact ⟨(h.literal hi).1, constant (h.literal hi).2 .text⟩
  | nspace => exact ⟨(h.nspace hi).1, constant (h.nspace hi).2 .nspace⟩
  | truth value =>
    cases hi
    cases value <;> exact ⟨by decide, reads_pure⟩
  | null | undefined =>
    cases hi
    exact ⟨by decide, reads_pure⟩

theorem reads_value {value : DefaultValue} (hw : indexing.valueBytes value = .ok bytes)
    (start : Nat) : Reads (Reader.value tables) start bytes True (value.rename f) := by
  obtain ⟨i, hi, hw⟩ := bind_eq_ok.1 hw
  rw [← pure_eq_ok.1 hw]
  obtain ⟨hlt, hv⟩ := reads_valueOf h hi start (start + (Bytes.reference i).length + 1)
  exact reads_offset.bind_free ((reads_reference hlt start).bind_sure
    (Reads.bind_last (reads_u8 _ value.kind.byte) fun _ => hv))

/-- **A default is read back, unless it is the global namespace.** -/
theorem reads_value? (closed : indexing.Closed) {value : Option DefaultValue}
    (hw : indexing.valueBytes? value = .ok bytes) (hg : value ≠ some (.nspace .global))
    (start : Nat) : Reads (value? tables) start bytes True (value.map (·.rename f)) := by
  cases value with
  | none =>
    rw [← pure_eq_ok.1 hw]
    have h₀ : 0 < countLimit := by decide
    exact reads_offset.bind_free ((reads_reference h₀ start).bind_last fun _ => reads_pure)
  | some value =>
    obtain ⟨i, hi, hw⟩ := bind_eq_ok.1 hw
    rw [← pure_eq_ok.1 hw]
    have hne := Indexing.valueIndex_ne_zero closed hi (fun hv => hg (congrArg some hv))
    obtain ⟨hlt, hv⟩ := reads_valueOf h hi start (start + (Bytes.reference i).length + 1)
    refine reads_offset.bind_free ((reads_reference hlt start).bind_sure ?_)
    rw [if_neg hne]
    exact Reads.bind_last (reads_u8 _ value.kind.byte) fun _ => hv.bind_pure _

end

/-! ## Traits -/

section
variable {tables : Tables} {indexing : Indexing} {r : Renaming} {bytes : Bytes}
  (h : tables.Holds indexing r)
include h

theorem reads_member (closed : indexing.Closed) {t : Trait}
    (hw : indexing.memberBytes t.member = .ok bytes) (hg : t.defaultsToGlobal = false)
    (start : Nat) :
    Reads (member tables t.member.kind) start bytes (IsU30 t.member.number)
      (t.member.rename r) := by
  unfold Trait.defaultsToGlobal at hg
  cases hm : t.member with
  | slot kind number type value =>
    rw [hm] at hw hg
    obtain ⟨i, hi, hw⟩ := bind_eq_ok.1 hw
    obtain ⟨more, hv, hw⟩ := bind_eq_ok.1 hw
    rw [← pure_eq_ok.1 hw, List.append_assoc]
    have hg' : value ≠ some (.nspace .global) := by
      rintro rfl
      simp at hg
    exact Reads.of_eq (Reads.bind (reads_u30 start number) fun _ =>
      (reads_multiname h.constants hi _).bind_sure
        ((reads_value? h.constants closed hv hg' _).bind_pure _)) rfl (and_iff_left trivial) rfl
  | access kind number method =>
    rw [hm] at hw
    obtain ⟨i, hi, hw⟩ := bind_eq_ok.1 hw
    rw [← pure_eq_ok.1 hw]
    exact Reads.of_eq (Reads.bind (reads_u30 start number) fun _ =>
      (reads_method h hi _).bind_pure _) rfl (and_iff_left trivial) rfl
  | classBinding number handle =>
    rw [hm] at hw
    obtain ⟨i, hi, hw⟩ := bind_eq_ok.1 hw
    rw [← pure_eq_ok.1 hw]
    exact Reads.of_eq (Reads.bind (reads_u30 start number) fun _ =>
      (reads_classRef h hi _).bind_pure _) rfl (and_iff_left trivial) rfl
  | function number method =>
    rw [hm] at hw
    obtain ⟨i, hi, hw⟩ := bind_eq_ok.1 hw
    rw [← pure_eq_ok.1 hw]
    exact Reads.of_eq (Reads.bind (reads_u30 start number) fun _ =>
      (reads_method h hi _).bind_pure _) rfl (and_iff_left trivial) rfl

omit h in
theorem reads_metadataIndex {count : Nat} (hc : tables.metadataCount = count)
    (hs : count < countLimit) {index : UInt32}
    (hw : Indexing.metadataReferenceBytes count index = .ok bytes) (start : Nat) :
    Reads (metadataIndex tables) start bytes True index := by
  unfold Indexing.metadataReferenceBytes at hw
  split at hw
  · next hi =>
    cases hw
    have hr : Reads (metadataIndex tables) start (Bytes.reference index.toNat) True index := by
      refine reads_entry (Nat.lt_trans hi hs) ?_ start
      rw [if_pos (hc ▸ hi), UInt32.ofNat_toNat]
    rwa [Bytes.reference, UInt32.ofNat_toNat] at hr
  · cases hw

omit h in
theorem reads_metadataList {count : Nat} (hc : tables.metadataCount = count)
    (hs : count < countLimit) {bits : UInt8} {list : List UInt32}
    (hb : bits &&& 0x40 ≠ 0 ↔ list ≠ [])
    (hw : (if list.isEmpty then pure [] else
      Bytes.list (Indexing.metadataReferenceBytes count) list) = .ok bytes) (start : Nat) :
    Reads (if bits &&& 0x40 ≠ 0 then Reader.list (metadataIndex tables) else pure []) start bytes
      (list.length < countLimit) list := by
  cases list with
  | nil =>
    rw [if_neg (by simpa using hb)]
    cases hw
    exact reads_pure.of_eq rfl (by simp [countLimit]) rfl
  | cons index indices =>
    rw [if_pos (hb.2 (List.cons_ne_nil _ _))]
    have hl : Reads (Reader.list (metadataIndex tables)) start bytes
        ((index :: indices).length < countLimit ∧ ∀ i ∈ index :: indices, True)
        ((index :: indices).map id) :=
      Reads.list hw (fun i _ bs hbs start => reads_metadataIndex hc hs hbs start) start
    exact hl.of_eq rfl (by simp) (List.map_id _)

/-- **A trait is read back.** -/
theorem reads_trait (closed : indexing.Closed) {count : Nat} (hc : tables.metadataCount = count)
    (hs : count < countLimit) {t : Trait} (hw : indexing.traitBytes count t = .ok bytes)
    (hg : t.defaultsToGlobal = false) (start : Nat) :
    Reads (traitEntry tables) start bytes t.Legible (t.rename r) := by
  obtain ⟨i, hi, hw⟩ := bind_eq_ok.1 hw
  obtain ⟨mbytes, hm, hw⟩ := bind_eq_ok.1 hw
  obtain ⟨more, hmore, hw⟩ := ite_bind_eq_ok.1 hw
  rw [← pure_eq_ok.1 hw]
  obtain ⟨htag, hmeta, hfinal, hover⟩ := t.bits_tag
  simp only [List.append_assoc]
  refine (reads_multiname h.constants hi start).bind_sure (reads_offset.bind_free
    ((reads_u8 _ (t.member.kind.tag ||| t.attributeBits)).bind_sure ?_))
  have hkind : MemberKind.ofTag? ((t.member.kind.tag ||| t.attributeBits) &&& 0x0f) =
      some t.member.kind := by rw [htag, MemberKind.ofTag?_tag]
  refine (reads_require hkind _ _).bind_free (Reads.of_eq (Reads.bind
    (reads_member h closed hm hg _) fun _ =>
      (reads_metadataList hc hs hmeta hmore _).bind_pure_ite _) rfl ?_ ?_)
  · exact ⟨fun hp => ⟨hp.1, hp.2⟩, fun hp => ⟨hp.1, hp.2⟩⟩
  · rw [hfinal, hover]
    rfl

theorem reads_traits (closed : indexing.Closed) {count : Nat} (hc : tables.metadataCount = count)
    (hs : count < countLimit) {list : List Trait} (hw : indexing.traitsBytes count list = .ok bytes)
    (hg : ∀ t ∈ list, t.defaultsToGlobal = false) (start : Nat) :
    Reads (traits tables) start bytes (LegibleTraits list) (list.map (·.rename r)) :=
  Reads.list hw (fun t ht _ hbs start => reads_trait h closed hc hs hbs (hg t ht) start) start

end

/-! ## Signatures -/

section
variable {tables : Tables} {indexing : Indexing} {f : Namespace → Namespace} {bytes : Bytes}
  (h : tables.pool.Holds indexing f)
include h

theorem reads_optional {bits : UInt8} {list : List DefaultValue} {parameters : Nat}
    (hb : bits &&& 0x08 ≠ 0 ↔ list ≠ [])
    (hw : (if list.isEmpty then pure [] else Bytes.list indexing.valueBytes list) = .ok bytes)
    (hp : parameters < countLimit) (start : Nat) :
    Reads (if bits &&& 0x08 ≠ 0 then optionalValues tables parameters else pure []) start bytes
      (list.length ≤ parameters) (list.map (·.rename f)) := by
  cases list with
  | nil =>
    rw [if_neg (by simpa using hb)]
    cases hw
    exact reads_pure.of_eq rfl (by simp) rfl
  | cons value values =>
    rw [if_pos (hb.2 (List.cons_ne_nil _ _))]
    obtain ⟨count, hc, hw⟩ := bind_eq_ok.1 hw
    obtain ⟨written, hws, hw⟩ := bind_eq_ok.1 hw
    rw [← pure_eq_ok.1 hw]
    have hv : List.Forall₂ (fun value bs => ∀ start, Reads (Reader.value tables) start bs True
        (value.rename f)) (value :: values) written :=
      (mapM_eq_ok.1 hws).imp fun _ _ hbs start => reads_value h hbs start
    refine reads_offset.bind_free (Reads.of_eq (Reads.bind (reads_index hc start) fun _ =>
      Reads.refuse fun _ => Reads.times hv _) rfl ?_ rfl)
    simp only [implies_true, and_true, gt_iff_lt, not_lt]
    exact ⟨fun hl => hl.2, fun hl => ⟨Nat.lt_of_le_of_lt hl hp, hl⟩⟩

omit h in
/-- Parameter names are written if there are as many as parameters. -/
theorem parameterNameBytes_eq_ok {signature : Signature} :
    indexing.parameterNameBytes signature = .ok bytes ↔
      (signature.parameterNames = [] ∧ [] = bytes) ∨
      (signature.parameterNames ≠ [] ∧
        signature.parameterNames.length = signature.parameters.length ∧
        ∃ is, signature.parameterNames.mapM (fun name => indexing.nameIndex (some name)) = .ok is ∧
          (is.map Bytes.reference).flatten = bytes) := by
  unfold Indexing.parameterNameBytes
  by_cases hn : signature.parameterNames = []
  · simp [hn]
  · have he : signature.parameterNames.isEmpty = false := by simpa using hn
    by_cases hl : signature.parameterNames.length = signature.parameters.length
    · simp [hn, he, hl, map_eq_ok]
    · simp [hn, he, hl]
      rintro ⟨⟩

theorem reads_parameterNames {bits : UInt8} {signature : Signature}
    (hb : bits &&& 0x80 ≠ 0 ↔ signature.parameterNames ≠ [])
    (hw : indexing.parameterNameBytes signature = .ok bytes) (start : Nat) :
    Reads (if bits &&& 0x80 ≠ 0 then times signature.parameters.length (string tables)
      else pure []) start bytes True signature.parameterNames := by
  rcases parameterNameBytes_eq_ok.1 hw with ⟨hn, rfl⟩ | ⟨hn, hl, is, his, rfl⟩
  · rw [if_neg (fun hb' => hb.1 hb' hn), hn]
    exact reads_pure
  · rw [if_pos (hb.2 hn), ← hl]
    have hr : Reads (times signature.parameterNames.length (string tables)) start
        (is.map Bytes.reference).flatten True (signature.parameterNames.map id) :=
      reads_references his (fun s i hi start => reads_string h hi start) start
    rwa [List.map_id] at hr

/-- **A signature is read back, but for the source file, which its code has to name.** -/
theorem reads_signature {r : Renaming} (hr : r.namespaces = f) {signature : Signature}
    (hw : indexing.signatureBytes signature = .ok bytes) (start : Nat) :
    Reads (Reader.signature tables) start bytes signature.Legible
      { signature.rename r with sourceFile := none } := by
  subst hr
  obtain ⟨count, hc, hw⟩ := bind_eq_ok.1 hw
  obtain ⟨i, hi, hw⟩ := bind_eq_ok.1 hw
  obtain ⟨is, his, hw⟩ := bind_eq_ok.1 hw
  obtain ⟨j, hj, hw⟩ := bind_eq_ok.1 hw
  obtain ⟨obytes, ho, hw⟩ := ite_bind_eq_ok.1 hw
  obtain ⟨nbytes, hn, hw⟩ := bind_eq_ok.1 hw
  rw [← pure_eq_ok.1 hw]
  simp only [List.append_assoc]
  obtain ⟨hflags, hopt, hnames⟩ := signature.flags.ofByte_byte (!signature.optional.isEmpty)
    (!signature.parameterNames.isEmpty)
  generalize signature.flags.byte (!signature.optional.isEmpty)
    (!signature.parameterNames.isEmpty) = bits at *
  have hopt' : bits &&& 0x08 ≠ 0 ↔ signature.optional ≠ [] := by simpa using hopt
  have hnames' : bits &&& 0x80 ≠ 0 ↔ signature.parameterNames ≠ [] := by simpa using hnames
  refine Reads.of_eq (Reads.bind (reads_index hc start) fun hp =>
    (reads_multiname h hi _).bind_sure ((reads_references his (fun p i hi start =>
      reads_multiname h hi start) _).bind_sure ((reads_name h hj _).bind_sure
    ((reads_u8 _ bits).bind_sure (Reads.bind_ite (reads_optional h hopt' ho hp _) fun _ =>
      (reads_parameterNames h hnames' hn _).bind_pure_ite _))))) rfl ?_ ?_
  · simp only [and_true]
    exact ⟨fun hp => ⟨hp.1, hp.2⟩, fun hp => ⟨hp.1, hp.2⟩⟩
  · rw [hflags]
    rfl

end

/-! ## Bodies -/

section
variable {tables : Tables} {indexing : Indexing} {r : Renaming} {bytes : Bytes}
  (h : tables.Holds indexing r)
include h

theorem reads_handler {handler : Handler UInt32} (hw : indexing.handlerBytes handler = .ok bytes)
    (start : Nat) :
    Reads (Reader.handler tables) start bytes handler.Legible (handler.rename r) := by
  obtain ⟨i, hi, hw⟩ := bind_eq_ok.1 hw
  obtain ⟨j, hj, hw⟩ := bind_eq_ok.1 hw
  rw [← pure_eq_ok.1 hw]
  simp only [List.append_assoc]
  refine Reads.of_eq (Reads.bind (reads_u30 start handler.start) fun _ =>
    Reads.bind (reads_u30 _ handler.stop) fun _ => Reads.bind (reads_u30 _ handler.entry) fun _ =>
    (reads_multiname h.constants hi _).bind_sure
      ((reads_multiname h.constants hj _).bind_pure _)) rfl ?_ rfl
  simp [Handler.Legible, Handler.places]

variable (closed : indexing.Closed) {count : Nat} (hc : tables.metadataCount = count)
  (hs : count < countLimit)
include closed hc hs

/-- **The body of a method is read back with its code as it was written.** -/
theorem reads_body {method : MethodHandle} {frame : Frame} {code : Bytes}
    {handlers : List (Handler UInt32)}
    (hw : indexing.bodyBytes count method frame code handlers = .ok bytes)
    (hg : ∀ t ∈ frame.traits, t.defaultsToGlobal = false) :
    ∃ i more, indexing.methodIndex method = .ok i ∧ bytes = Bytes.reference i ++ more ∧
      ∀ start, Reads (body tables) start more
        (frame.Legible ∧ code.length < countLimit ∧ handlers.length < countLimit ∧
          ∀ handler ∈ handlers, handler.Legible)
        { toFrame := frame.rename r, code := .ofWire code (handlers.map (·.rename r)) } := by
  obtain ⟨i, hi, hw⟩ := bind_eq_ok.1 hw
  obtain ⟨length, hl, hw⟩ := bind_eq_ok.1 hw
  obtain ⟨hbytes, hh, hw⟩ := bind_eq_ok.1 hw
  obtain ⟨tbytes, ht, hw⟩ := bind_eq_ok.1 hw
  rw [← pure_eq_ok.1 hw]
  simp only [List.append_assoc]
  refine ⟨i, _, hi, rfl, fun start => Reads.of_eq
    (Reads.bind (reads_u30 start frame.maxStack) fun _ =>
    Reads.bind (reads_u30 _ frame.localCount) fun _ =>
    Reads.bind (reads_u30 _ frame.initScopeDepth) fun _ =>
    Reads.bind (reads_u30 _ frame.maxScopeDepth) fun _ =>
    Reads.bind (reads_index hl _) fun _ => (reads_bytes _ code).bind_sure
      (Reads.bind (Reads.list hh (fun handler _ bs hbs start => reads_handler h hbs start) _)
        fun _ => (reads_traits h closed hc hs ht hg _).bind_pure _)) rfl ?_ rfl⟩
  constructor
  · rintro ⟨h₁, h₂, h₃, h₄, h₅, h₆, h₇⟩
    exact ⟨⟨h₁, h₂, h₃, h₄, h₇⟩, h₅, h₆⟩
  · rintro ⟨⟨h₁, h₂, h₃, h₄, h₇⟩, h₅, h₆⟩
    exact ⟨h₁, h₂, h₃, h₄, h₅, h₆, h₇⟩

/-! ## Classes and scripts -/

omit h closed hc hs in
theorem reads_protected (h : tables.pool.Holds indexing r.namespaces) {bits : UInt8}
    {ns : Option Namespace} (hb : bits &&& 0x08 ≠ 0 ↔ ns.isSome = true)
    (hw : (match ns with
      | some ns => Bytes.reference <$> indexing.namespaceIndex ns
      | none => pure []) = .ok bytes) (start : Nat) :
    Reads (if bits &&& 0x08 ≠ 0 then some <$> nspace tables else pure none) start bytes True
      (ns.map r.namespaces) := by
  cases ns with
  | none =>
    rw [if_neg (by simpa using hb)]
    cases hw
    exact reads_pure
  | some ns =>
    rw [if_pos (hb.2 rfl)]
    obtain ⟨i, hi, rfl⟩ := map_eq_ok.1 hw
    exact (reads_nspace h hi start).map some

theorem reads_instanceSide {cls : ClassDefinition}
    (hw : indexing.instanceBytes count cls = .ok bytes)
    (hg : ∀ t ∈ cls.instanceTraits, t.defaultsToGlobal = false) (start : Nat) :
    Reads (instanceSide tables) start bytes
      (cls.interfaces.length < countLimit ∧ LegibleTraits cls.instanceTraits)
      { cls.rename r with staticInit := r.methods cls.constructor, staticTraits := [] } := by
  obtain ⟨i, hi, hw⟩ := bind_eq_ok.1 hw
  obtain ⟨j, hj, hw⟩ := bind_eq_ok.1 hw
  obtain ⟨pbytes, hp, hw⟩ := Indexing.protected_bind_eq_ok.1 hw
  obtain ⟨ibytes, hin, hw⟩ := bind_eq_ok.1 hw
  obtain ⟨k, hk, hw⟩ := bind_eq_ok.1 hw
  obtain ⟨tbytes, ht, hw⟩ := bind_eq_ok.1 hw
  rw [← pure_eq_ok.1 hw]
  simp only [List.append_assoc]
  obtain ⟨hflags, hprot⟩ := cls.flags.ofByte_byte cls.protectedNamespace.isSome
  generalize cls.flags.byte cls.protectedNamespace.isSome = bits at *
  have hinterface (name : Multiname) (_ : name ∈ cls.interfaces) (bs : Bytes)
      (hbs : (return Bytes.reference (← indexing.multinameIndex name)) = Except.ok bs)
      (start : Nat) : Reads (multiname tables) start bs True (name.rename r.namespaces) := by
    obtain ⟨i, hi, hbs⟩ := bind_eq_ok.1 hbs
    rw [← pure_eq_ok.1 hbs]
    exact reads_multiname h.constants hi start
  refine Reads.of_eq ((reads_multiname h.constants hi start).bind_sure
    ((reads_multiname h.constants hj _).bind_sure ((reads_u8 _ bits).bind_sure
    (Reads.bind_ite (reads_protected h.constants hprot hp _) fun _ =>
      Reads.bind (Reads.list hin hinterface _) fun _ => (reads_method h hk _).bind_sure
        ((reads_traits h closed hc hs ht hg _).bind_pure _))))) rfl (by simp) ?_
  rw [hflags]
  rfl

theorem reads_staticSide {cls known : ClassDefinition}
    (hw : indexing.staticBytes count cls = .ok bytes)
    (hg : ∀ t ∈ cls.staticTraits, t.defaultsToGlobal = false) (start : Nat) :
    Reads (staticSide tables known) start bytes (LegibleTraits cls.staticTraits)
      { known with
        staticInit := r.methods cls.staticInit
        staticTraits := cls.staticTraits.map (·.rename r) } := by
  obtain ⟨i, hi, hw⟩ := bind_eq_ok.1 hw
  obtain ⟨tbytes, ht, hw⟩ := bind_eq_ok.1 hw
  rw [← pure_eq_ok.1 hw]
  exact (reads_method h hi start).bind_sure ((reads_traits h closed hc hs ht hg _).bind_pure _)

omit h closed hc hs in
/-- The parts of the classes on the wire. -/
theorem classesBytes_eq_ok {classes : List ClassDefinition} :
    indexing.classesBytes count classes = .ok bytes ↔ ∃ length instances statics,
      Bytes.index classes.length = .ok length ∧
      List.Forall₂ (fun cls bs => indexing.instanceBytes count cls = .ok bs) classes instances ∧
      List.Forall₂ (fun cls bs => indexing.staticBytes count cls = .ok bs) classes statics ∧
      length ++ (instances.flatten ++ statics.flatten) = bytes := by
  unfold Indexing.classesBytes Bytes.list
  simp only [bind_eq_ok, pure_eq_ok, mapM_eq_ok]
  constructor
  · rintro ⟨_, ⟨length, hl, instances, hi, rfl⟩, statics, hs, rfl⟩
    exact ⟨length, instances, statics, hl, hi, hs, (List.append_assoc ..).symm⟩
  · rintro ⟨length, instances, statics, hl, hi, hs, rfl⟩
    exact ⟨_, ⟨length, hl, instances, hi, rfl⟩, statics, hs, List.append_assoc ..⟩

/-- **All instance sides are read back, and then all static sides.** -/
theorem reads_classes {classes : List ClassDefinition} {instances statics : List Bytes}
    (hi : List.Forall₂ (fun cls bs => indexing.instanceBytes count cls = .ok bs) classes instances)
    (ht : List.Forall₂ (fun cls bs => indexing.staticBytes count cls = .ok bs) classes statics)
    (hg : ∀ cls ∈ classes, ∀ t ∈ cls.instanceTraits ++ cls.staticTraits,
      t.defaultsToGlobal = false) (start : Nat) :
    Reads (times classes.length (instanceSide tables) >>= fun instances =>
      instances.mapM (staticSide tables)) start (instances.flatten ++ statics.flatten)
      (∀ cls ∈ classes, cls.Legible) (classes.map (·.rename r)) := by
  refine Reads.of_eq (Reads.bind (Reads.times (forall₂_of_mem hi fun cls hcls bs hbs start =>
    reads_instanceSide h closed hc hs hbs
      (fun t ht => hg cls hcls t (List.mem_append_left _ ht)) start) start) fun _ =>
    Reads.mapM (forall₂_of_mem ht fun cls hcls bs hbs start =>
      reads_staticSide h closed hc hs hbs
        (fun t ht => hg cls hcls t (List.mem_append_right _ ht)) start) _) rfl ?_ rfl
  constructor
  · rintro ⟨h₁, h₂⟩ cls hcls
    exact ⟨(h₁ cls hcls).1, (h₁ cls hcls).2, h₂ cls hcls⟩
  · intro hl
    exact ⟨fun cls hcls => ⟨(hl cls hcls).1, (hl cls hcls).2⟩, fun cls hcls => (hl cls hcls).3⟩

theorem reads_script {script : Script} (hw : indexing.scriptBytes count script = .ok bytes)
    (hg : ∀ t ∈ script.traits, t.defaultsToGlobal = false) (start : Nat) :
    Reads (Reader.script tables) start bytes (LegibleTraits script.traits) (script.rename r) := by
  obtain ⟨i, hi, hw⟩ := bind_eq_ok.1 hw
  obtain ⟨tbytes, ht, hw⟩ := bind_eq_ok.1 hw
  rw [← pure_eq_ok.1 hw]
  exact (reads_method h hi start).bind_sure ((reads_traits h closed hc hs ht hg _).bind_pure _)

end

/-! ## Metadata -/

theorem reads_metadata {tables : Tables} {indexing : Indexing} {f : Namespace → Namespace}
    {bytes : Bytes} (h : tables.pool.Holds indexing f) {entry : Metadata}
    (hw : indexing.metadataBytes entry = .ok bytes) (start : Nat) :
    Reads (Reader.metadata tables) start bytes (entry.items.length < countLimit) entry.asRead := by
  obtain ⟨i, hi, hw⟩ := bind_eq_ok.1 hw
  obtain ⟨more, hm, hw⟩ := bind_eq_ok.1 hw
  rw [← pure_eq_ok.1 hw]
  have hitem (item : Option String × String) (_ : item ∈ entry.items) (bs : Bytes)
      (hbs : indexing.metadataItemBytes item = .ok bs) (start : Nat) :
      Reads (metadataItem tables) start bs True (spelled? item.1, item.2) := by
    obtain ⟨i, hi, hbs⟩ := bind_eq_ok.1 hbs
    obtain ⟨j, hj, hbs⟩ := bind_eq_ok.1 hbs
    rw [← pure_eq_ok.1 hbs]
    exact (reads_name h hi start).bind_sure ((reads_string h hj _).bind_pure _)
  exact (reads_string h hi start).bind_sure
    (((Reads.list hm hitem _).bind_pure _).of_eq rfl (by simp) rfl)

end Reader

end ActionBytecode
