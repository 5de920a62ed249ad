/-
  ActionBytecode — what stands at each place of the bytes.

  The bytes of a unit that is written anew are one item after another (`Item`): bytes that no
  index decides, and indices of constants, names, methods and classes.  `CodeUnit.wire` lists the
  items from the unit alone, and `Item.WrittenAs` says what an item looks like on the wire:

  * the constant of a value has an index above 0, also when the value equals the fixed entry, and
    a value without a constant has an index above 0 too (`DefaultValue.At`);
  * a name is at index 0 if and only if it is missing or `*` (`NameAt`).

  Writers and items are put together alike (`Comprises.append`, `comprises_mapM`,
  `comprises_counted`), so there is one lemma for each part of a unit, and `Edit.items_written`
  for the whole.
-/
import ActionBytecode.Proofs.FixedPoint

namespace ActionBytecode

/-! ## Items -/

/-- What stands at a place of the bytes of a unit. -/
inductive Item where
  /-- Bytes that no index decides: counts, tags, flags, numbers and texts. -/
  | plain (bytes : Bytes)
  /-- A packed number that counts bytes of code. -/
  | extent
  /-- The distance of a jump. -/
  | distance
  /-- The index of a value's constant. -/
  | value (value : DefaultValue)
  /-- The index of a string as a name. -/
  | name (name : Option String)
  | namespaceSet (set : NamespaceSet)
  | multiname (name : Multiname)
  | method (handle : MethodHandle)
  | classRef (handle : ClassHandle)

/-- The index stands for the value: above 0, and that of the value in its table if it has one.
    Only namespaces use the fixed entry of their table. -/
def DefaultValue.At (pool : Pool) (i : Nat) : DefaultValue → Prop
  | .int value => i ≠ 0 ∧ pool.ints[i]? = some value
  | .uint value => i ≠ 0 ∧ pool.uints[i]? = some value
  | .double value => i ≠ 0 ∧ pool.doubles[i]? = some value
  | .text value => i ≠ 0 ∧ pool.strings[i]? = some value
  | .nspace ns => pool.namespaces[i]? = some ns
  | .truth _ | .null | .undefined => i ≠ 0

/-- The index stands for the name: 0 if and only if it is missing or `*`. -/
def NameAt (pool : Pool) (i : Nat) (name : Option String) : Prop :=
  (i = 0 ↔ name = none ∨ name = some anyName) ∧ pool.strings[i]? = some (name.getD anyName)

/-- How an item is written in a unit that keeps what was written. -/
def Item.WrittenAs (unit : CodeUnit) (bytes : Bytes) : Item → Prop
  | .plain known => bytes = known
  | .extent => ∃ n, bytes = Bytes.u32 n
  | .distance => bytes.length = 3
  | .value v => ∃ i : UInt32, bytes = Bytes.u32 i ∧ v.At unit.pool i.toNat
  | .name n => ∃ i : UInt32, bytes = Bytes.u32 i ∧ NameAt unit.pool i.toNat n
  | .namespaceSet set =>
    ∃ i : UInt32, bytes = Bytes.u32 i ∧ unit.pool.namespaceSets[i.toNat]? = some set
  | .multiname n => ∃ i : UInt32, bytes = Bytes.u32 i ∧ unit.pool.multinames[i.toNat]? = some n
  | .method handle => ∃ i, bytes = Bytes.u32 (.ofNat i) ∧ unit.methodOrder[i]? = some handle
  | .classRef handle => ∃ i, bytes = Bytes.u32 (.ofNat i) ∧ unit.classOrder[i]? = some handle

/-- The bytes are made up of the items, one after another. -/
def Comprises (unit : CodeUnit) (items : List Item) (bytes : Bytes) : Prop :=
  ∃ pieces, List.Forall₂ (fun item piece => Item.WrittenAs unit piece item) items pieces ∧
    pieces.flatten = bytes

/-! ## The items of each part -/

namespace Item

def count (n : Nat) : Item := .plain (Bytes.u32 (.ofNat n))

/-- A packed number. -/
def number (value : UInt32) : Item := .plain (Bytes.u32 value)

/-- A counted list. -/
def counted {α : Type} (items : α → List Item) (members : List α) : List Item :=
  [.count members.length] ++ members.flatMap items

/-- A table without its fixed entry, which is counted all the same. -/
def entries {α : Type} (items : α → List Item) (table : List α) : List Item :=
  [.count (if table.isEmpty then 0 else table.length + 1)] ++ table.flatMap items

end Item

def DefaultValue.wire (value : DefaultValue) : List Item := [.value value, .plain [value.kind.byte]]

def Namespace.wire (ns : Namespace) : List Item := [.plain [ns.kind.byte], .name (some ns.name)]

def NamespaceSet.wire (set : NamespaceSet) : List Item :=
  Item.counted (fun ns => [.value (.nspace ns)]) set.members

/-- The parts of a multiname. -/
def Multiname.wireParts : Multiname → List Item
  | .qualified _ ns name => [.value (.nspace ns), .name (some name)]
  | .runtimeQualified _ name => [.name (some name)]
  | .runtime _ => []
  | .ambiguous _ name set => [.name (some name), .namespaceSet set]
  | .late _ set => [.namespaceSet set]
  | .applied base params => .multiname base :: Item.counted (fun p => [.multiname p]) params

def Multiname.wire (name : Multiname) : List Item := .plain [name.kind.byte] :: name.wireParts

def Pool.wire (pool : Pool) : List Item :=
  Item.entries (fun value => [Item.plain (Bytes.s32 value)]) pool.ints.toList.tail ++
    Item.entries (fun value => [Item.number value]) pool.uints.toList.tail ++
    Item.entries (fun value => [Item.plain (Bytes.d64 value)]) pool.doubles.toList.tail ++
    Item.entries (fun s => [Item.count (Utf8.encode s).length, .plain (Utf8.encode s)])
      pool.strings.toList.tail ++
    Item.entries Namespace.wire pool.namespaces.toList.tail ++
    Item.entries NamespaceSet.wire pool.namespaceSets.toList.tail ++
    Item.entries Multiname.wire pool.multinames.toList.tail

def Signature.wire (signature : Signature) : List Item :=
  [Item.count signature.parameters.length, Item.multiname signature.returnType] ++
    signature.parameters.map Item.multiname ++ [Item.name signature.name] ++
    [Item.plain [signature.flags.byte (!signature.optional.isEmpty)
      (!signature.parameterNames.isEmpty)]] ++
    (if signature.optional.isEmpty then []
      else Item.counted DefaultValue.wire signature.optional) ++
    signature.parameterNames.map fun name => Item.name (some name)

def Metadata.wire (entry : Metadata) : List Item :=
  .name (some entry.name) ::
    Item.counted (fun item => [.name item.1, .name (some item.2)]) entry.items

def Member.wire : Member → List Item
  | .slot _ n type (some value) => [.number n, .multiname type] ++ value.wire
  | .slot _ n type none => [.number n, .multiname type, .count 0]
  | .access _ n method => [.number n, .method method]
  | .classBinding n handle => [.number n, .classRef handle]
  | .function n method => [.number n, .method method]

def Trait.wire (t : Trait) : List Item :=
  [Item.multiname t.name, Item.plain [t.member.kind.tag ||| t.attributeBits]] ++ t.member.wire ++
    if t.metadata.isEmpty then [] else Item.counted (fun i => [Item.number i]) t.metadata

def ClassDefinition.instanceWire (cls : ClassDefinition) : List Item :=
  [Item.multiname cls.name, Item.multiname cls.superName,
    Item.plain [cls.flags.byte cls.protectedNamespace.isSome]] ++
    cls.protectedNamespace.toList.map (fun ns => Item.value (.nspace ns)) ++
    Item.counted (fun name => [Item.multiname name]) cls.interfaces ++
    [Item.method cls.constructor] ++ Item.counted Trait.wire cls.instanceTraits

def ClassDefinition.staticWire (cls : ClassDefinition) : List Item :=
  .method cls.staticInit :: Item.counted Trait.wire cls.staticTraits

def Script.wire (script : Script) : List Item :=
  .method script.init :: Item.counted Trait.wire script.traits

def Operand.wire : Operand → Item
  | .u8 value => .plain (Bytes.u8 value)
  | .s8 value => .plain (Bytes.s8 value)
  | .u30 value => .number value
  | .int value => .value (.int value)
  | .uint value => .value (.uint value)
  | .double value => .value (.double value)
  | .string value => .value (.text value)
  | .nspace ns => .value (.nspace ns)
  | .multiname name => .multiname name
  | .method handle => .method handle
  | .classRef handle => .classRef handle
  | .target _ => .distance

def Emission.wire (emission : Emission) : List Item :=
  .plain [emission.opcode.byte] :: emission.operands.map Operand.wire

def Handler.wire {π : Type} (handler : Handler π) : List Item :=
  [.extent, .extent, .extent, .multiname handler.catchType, .multiname handler.variableName]

/-- The code of a method, with the markers that are put into it. -/
def Method.codeWire (debug : Bool) (method : Method) (body : Body) : List Item :=
  match method.emissions body.code debug with
  | .ok emissions => emissions.flatMap Emission.wire
  | .error _ => []

/-- The body of the method with the handle. -/
def Method.bodyWire (debug : Bool) (handle : MethodHandle) (method : Method) (body : Body) :
    List Item :=
  [Item.method handle, Item.number body.maxStack, Item.number body.localCount,
    Item.number body.initScopeDepth, Item.number body.maxScopeDepth, Item.extent] ++
    method.codeWire debug body ++
    Item.counted Handler.wire body.code.handlers ++ Item.counted Trait.wire body.traits

namespace CodeUnit

/-- The methods of the unit in a given order. -/
def methodsIn (unit : CodeUnit) (order : List MethodHandle) : List (MethodHandle × Method) :=
  order.filterMap fun handle => (unit.method? handle).map (handle, ·)

/-- The methods of the unit that have a body, in a given order. -/
def bodiesIn (unit : CodeUnit) (order : List MethodHandle) : List (MethodHandle × Method × Body) :=
  (unit.methodsIn order).filterMap fun entry => entry.2.body.map (entry.1, entry.2, ·)

/-- The items of the unit, with the pool and in the orders of what was kept of it. -/
def wire (unit kept : CodeUnit) (debug : Bool) : List Item :=
  let classes := kept.classOrder.filterMap unit.class?
  [Item.plain (Bytes.u16 minorVersion ++ Bytes.u16 majorVersion)] ++ kept.pool.wire ++
    Item.counted (fun entry => entry.2.toSignature.wire) (unit.methodsIn kept.methodOrder) ++
    Item.counted Metadata.wire unit.metadata ++
    (Item.counted ClassDefinition.instanceWire classes ++
      classes.flatMap ClassDefinition.staticWire) ++
    Item.counted Script.wire unit.scripts ++
    Item.counted (fun entry => entry.2.1.bodyWire debug entry.1 entry.2.2)
      (unit.bodiesIn kept.methodOrder)

end CodeUnit

/-! ## Putting items together -/

section
variable {unit : CodeUnit} {items others : List Item} {bytes rest : Bytes}

theorem Comprises.nil : Comprises unit [] [] := ⟨[], .nil, rfl⟩

theorem Comprises.append (h : Comprises unit items bytes) (h' : Comprises unit others rest) :
    Comprises unit (items ++ others) (bytes ++ rest) := by
  obtain ⟨pieces, hp, rfl⟩ := h
  obtain ⟨pieces', hp', rfl⟩ := h'
  exact ⟨pieces ++ pieces', List.rel_append hp hp', List.flatten_append⟩

theorem comprises_item {item : Item} (h : item.WrittenAs unit bytes) :
    Comprises unit [item] bytes :=
  ⟨[bytes], .cons h .nil, List.append_nil bytes⟩

theorem comprises_plain (bytes : Bytes) : Comprises unit [.plain bytes] bytes :=
  comprises_item rfl

section
variable {α : Type} {write : α → Except Fault Bytes} {wire : α → List Item} {xs : List α}

theorem comprises_flatten {pieces : List Bytes}
    (h : List.Forall₂ (fun x bs => Comprises unit (wire x) bs) xs pieces) :
    Comprises unit (xs.flatMap wire) pieces.flatten := by
  induction h with
  | nil => exact .nil
  | cons hx _ ih => exact hx.append ih

theorem comprises_mapM {pieces : List Bytes} (hw : xs.mapM write = .ok pieces)
    (h : ∀ x ∈ xs, ∀ bs, write x = .ok bs → Comprises unit (wire x) bs) :
    Comprises unit (xs.flatMap wire) pieces.flatten :=
  comprises_flatten (forall₂_of_mem (mapM_eq_ok.1 hw) h)

theorem comprises_references {find : α → Except Fault Nat} {item : α → Item} {is : List Nat}
    (hw : xs.mapM find = .ok is)
    (h : ∀ x i, find x = .ok i → Comprises unit [item x] (Bytes.reference i)) :
    Comprises unit (xs.map item) (is.map Bytes.reference).flatten := by
  rw [List.map_eq_flatMap]
  refine comprises_flatten (List.forall₂_map_right_iff.2 ?_)
  exact (mapM_eq_ok.1 hw).imp h

/-- An index that is looked up and written. -/
theorem comprises_reference {find : Except Fault Nat} {bytes : Bytes} {items : List Item}
    (hw : (do return Bytes.reference (← find)) = .ok bytes)
    (h : ∀ i, find = .ok i → Comprises unit items (Bytes.reference i)) :
    Comprises unit items bytes := by
  obtain ⟨i, hi, hw⟩ := bind_eq_ok.1 hw
  rw [← pure_eq_ok.1 hw]
  exact h i hi

theorem comprises_count {n : Nat} (hw : Bytes.index n = .ok bytes) :
    Comprises unit [.count n] bytes := by
  rw [← (Reader.index_eq_ok.1 hw).2]
  exact comprises_plain _

theorem comprises_counted (hw : Bytes.list write xs = .ok bytes)
    (h : ∀ x ∈ xs, ∀ bs, write x = .ok bs → Comprises unit (wire x) bs) :
    Comprises unit (Item.counted wire xs) bytes := by
  obtain ⟨count, hc, hw⟩ := bind_eq_ok.1 hw
  obtain ⟨pieces, hp, hw⟩ := bind_eq_ok.1 hw
  rw [← pure_eq_ok.1 hw]
  exact (comprises_count hc).append (comprises_mapM hp h)

/-- A counted list that is left out when it is empty. -/
theorem comprises_unless_empty
    (hw : (if xs.isEmpty then pure [] else Bytes.list write xs) = .ok bytes)
    (h : ∀ x ∈ xs, ∀ bs, write x = .ok bs → Comprises unit (wire x) bs) :
    Comprises unit (if xs.isEmpty then [] else Item.counted wire xs) bytes := by
  split at hw
  · next he =>
    rw [if_pos he, ← pure_eq_ok.1 hw]
    exact .nil
  · next he =>
    rw [if_neg he]
    exact comprises_counted hw h

theorem comprises_entries (hw : Bytes.table write xs = .ok bytes)
    (h : ∀ x ∈ xs, ∀ bs, write x = .ok bs → Comprises unit (wire x) bs) :
    Comprises unit (Item.entries wire xs) bytes := by
  obtain ⟨count, hc, hw⟩ := bind_eq_ok.1 hw
  obtain ⟨pieces, hp, hw⟩ := bind_eq_ok.1 hw
  rw [← pure_eq_ok.1 hw]
  exact (comprises_count hc).append (comprises_mapM hp h)

end

end

/-! ## Indices -/

/-- The unit keeps what was written with the indices, none of which is too large. -/
structure CodeUnit.Reflects (unit : CodeUnit) (a : Indexing) : Prop where
  pool : unit.pool = a.toPool
  methodOrder : unit.methodOrder = a.methods.values
  classOrder : unit.classOrder = a.classes.values
  small : ∀ n ∈ a.toPool.sizes, n < 0x40000000

section
variable {unit : CodeUnit} {a : Indexing} {i : Nat} (h : unit.Reflects a)
include h

/-- An index into a table of constants is written as it is. -/
theorem CodeUnit.Reflects.toNat_index {α : Type} {table : Array α} {x : α}
    (hs : table.size ∈ a.toPool.sizes) (hx : table[i]? = some x) : (UInt32.ofNat i).toNat = i := by
  obtain ⟨hi, -⟩ := Array.getElem?_eq_some_iff.1 hx
  have hlt : i < 4294967296 := (hi.trans (h.small _ hs)).trans (by decide)
  exact UInt32.toNat_ofNat_of_lt' hlt

theorem comprises_value {value : DefaultValue} (hi : a.valueIndex value = .ok i) :
    Comprises unit [.value value] (Bytes.reference i) := by
  refine comprises_item ⟨UInt32.ofNat i, rfl, ?_⟩
  rw [h.pool]
  -- the index of a literal counts the fixed entry, so it is never that of it
  have hliteral {α : Type} {table : Array α} {x : α} {place : Except Fault Nat}
      (hi : (do return (← place) + 1) = .ok i) (hs : table.size ∈ a.toPool.sizes)
      (hx : table[i]? = some x) :
      (UInt32.ofNat i).toNat ≠ 0 ∧ table[(UInt32.ofNat i).toNat]? = some x := by
    obtain ⟨j, -, hj⟩ := bind_eq_ok.1 hi
    have hne : i ≠ 0 := pure_eq_ok.1 hj ▸ Nat.succ_ne_zero j
    rw [h.toNat_index hs hx]
    exact ⟨hne, hx⟩
  cases value with
  | int value => exact hliteral hi (by simp [Pool.sizes]) (Indexing.getElem?_of_intIndex hi)
  | uint value => exact hliteral hi (by simp [Pool.sizes]) (Indexing.getElem?_of_uintIndex hi)
  | double value => exact hliteral hi (by simp [Pool.sizes]) (Indexing.getElem?_of_doubleIndex hi)
  | text value =>
    exact hliteral hi (by simp [Pool.sizes]) (Indexing.getElem?_of_literalIndex hi).1
  | nspace ns =>
    have hx := Indexing.getElem?_of_namespaceIndex hi
    rw [h.toNat_index (by simp [Pool.sizes]) hx]
    exact hx
  | truth value =>
    rw [DefaultValue.At]
    cases value <;> cases hi <;> decide
  | null | undefined =>
    rw [DefaultValue.At]
    cases hi
    decide

theorem comprises_nspace {ns : Namespace} (hi : a.namespaceIndex ns = .ok i) :
    Comprises unit [.value (.nspace ns)] (Bytes.reference i) :=
  comprises_value h hi

theorem comprises_name {name : Option String} (hi : a.nameIndex name = .ok i) :
    Comprises unit [.name name] (Bytes.reference i) := by
  refine comprises_item ⟨UInt32.ofNat i, rfl, ?_⟩
  rw [NameAt, ← Indexing.spelled?_eq_none]
  cases hs : spelled? name with
  | none =>
    cases (Indexing.nameIndex_of_not_spelled hs).symm.trans hi
    refine ⟨iff_of_true rfl rfl, ?_⟩
    rw [h.pool]
    rcases Indexing.spelled?_eq_none.1 hs with rfl | rfl <;> rfl
  | some s =>
    rw [Indexing.nameIndex_of_spelled hs] at hi
    obtain ⟨hx, hne⟩ := Indexing.getElem?_of_literalIndex hi
    obtain ⟨rfl, -⟩ := Indexing.spelled?_eq_some.1 hs
    rw [h.toNat_index (by simp [Pool.sizes]) hx, h.pool]
    exact ⟨iff_of_false hne (by simp), hx⟩

theorem comprises_namespaceSet {set : NamespaceSet} (hi : a.namespaceSetIndex set = .ok i) :
    Comprises unit [.namespaceSet set] (Bytes.reference i) := by
  have hx := Indexing.getElem?_of_namespaceSetIndex hi
  refine comprises_item ⟨UInt32.ofNat i, rfl, ?_⟩
  rwa [h.toNat_index (by simp [Pool.sizes]) hx, h.pool]

theorem comprises_multiname {name : Multiname} (hi : a.multinameIndex name = .ok i) :
    Comprises unit [.multiname name] (Bytes.reference i) := by
  have hx := Indexing.getElem?_of_multinameIndex hi
  refine comprises_item ⟨UInt32.ofNat i, rfl, ?_⟩
  rwa [h.toNat_index (by simp [Pool.sizes]) hx, h.pool]

theorem comprises_method {handle : MethodHandle} (hi : a.methodIndex handle = .ok i) :
    Comprises unit [.method handle] (Bytes.reference i) :=
  comprises_item ⟨i, rfl, h.methodOrder ▸ Numbering.id_eq_ok.1 hi⟩

theorem comprises_classRef {handle : ClassHandle} (hi : a.classIndex handle = .ok i) :
    Comprises unit [.classRef handle] (Bytes.reference i) :=
  comprises_item ⟨i, rfl, h.classOrder ▸ Numbering.id_eq_ok.1 hi⟩

end

/-! ## The parts of a unit -/

section
variable {unit : CodeUnit} {a : Indexing} {bytes : Bytes} (h : unit.Reflects a)
include h

theorem comprises_valueBytes {value : DefaultValue} (hw : a.valueBytes value = .ok bytes) :
    Comprises unit value.wire bytes := by
  obtain ⟨i, hi, hw⟩ := bind_eq_ok.1 hw
  rw [← pure_eq_ok.1 hw]
  exact (comprises_value h hi).append (comprises_plain _)

theorem comprises_namespaceBytes {ns : Namespace} (hw : a.namespaceBytes ns = .ok bytes) :
    Comprises unit ns.wire bytes := by
  obtain ⟨i, hi, hw⟩ := bind_eq_ok.1 hw
  rw [← pure_eq_ok.1 hw]
  exact (comprises_plain [ns.kind.byte]).append (comprises_name h hi)

theorem comprises_namespaceSetBytes {set : NamespaceSet}
    (hw : a.namespaceSetBytes set = .ok bytes) : Comprises unit set.wire bytes :=
  comprises_counted hw fun _ _ _ hbs => comprises_reference hbs fun _ hi => comprises_nspace h hi

theorem comprises_multinamePartBytes {name : Multiname}
    (hw : a.multinamePartBytes name = .ok bytes) : Comprises unit name.wireParts bytes := by
  cases name with
  | qualified attr ns name =>
    obtain ⟨i, hi, hw⟩ := bind_eq_ok.1 hw
    obtain ⟨j, hj, hw⟩ := bind_eq_ok.1 hw
    rw [← pure_eq_ok.1 hw]
    exact (comprises_nspace h hi).append (comprises_name h hj)
  | runtimeQualified attr name => exact comprises_reference hw fun _ hi => comprises_name h hi
  | runtime attr =>
    rw [← pure_eq_ok.1 hw]
    exact .nil
  | ambiguous attr name set =>
    obtain ⟨i, hi, hw⟩ := bind_eq_ok.1 hw
    obtain ⟨j, hj, hw⟩ := bind_eq_ok.1 hw
    rw [← pure_eq_ok.1 hw]
    exact (comprises_name h hi).append (comprises_namespaceSet h hj)
  | late attr set => exact comprises_reference hw fun _ hi => comprises_namespaceSet h hi
  | applied base params =>
    obtain ⟨i, hi, hw⟩ := bind_eq_ok.1 hw
    obtain ⟨written, hp, hw⟩ := bind_eq_ok.1 hw
    rw [← pure_eq_ok.1 hw]
    exact (comprises_multiname h hi).append (comprises_counted hp fun _ _ _ hbs =>
      comprises_reference hbs fun _ hj => comprises_multiname h hj)

theorem comprises_multinameBytes {name : Multiname} (hw : a.multinameBytes name = .ok bytes) :
    Comprises unit name.wire bytes := by
  obtain ⟨parts, hp, hw⟩ := bind_eq_ok.1 hw
  rw [← pure_eq_ok.1 hw]
  exact (comprises_plain [name.kind.byte]).append (comprises_multinamePartBytes h hp)

theorem comprises_poolBytes (hw : a.poolBytes = .ok bytes) :
    Comprises unit unit.pool.wire bytes := by
  obtain ⟨ints, hints, hw⟩ := bind_eq_ok.1 hw
  obtain ⟨uints, huints, hw⟩ := bind_eq_ok.1 hw
  obtain ⟨doubles, hdoubles, hw⟩ := bind_eq_ok.1 hw
  obtain ⟨strings, hstrings, hw⟩ := bind_eq_ok.1 hw
  obtain ⟨namespaces, hnamespaces, hw⟩ := bind_eq_ok.1 hw
  obtain ⟨sets, hsets, hw⟩ := bind_eq_ok.1 hw
  obtain ⟨multinames, hmultinames, hw⟩ := bind_eq_ok.1 hw
  rw [← pure_eq_ok.1 hw, h.pool]
  -- literals are written as they are
  have hplain {α : Type} {write : α → Bytes} (x : α) (bs : Bytes)
      (hbs : (Except.ok (write x) : Except Fault Bytes) = .ok bs) :
      Comprises unit [.plain (write x)] bs := by
    cases hbs
    exact comprises_plain _
  have htext (s : String) (bs : Bytes) (hbs : Bytes.text s = .ok bs) :
      Comprises unit [.count (Utf8.encode s).length, .plain (Utf8.encode s)] bs := by
    obtain ⟨count, hc, hbs⟩ := bind_eq_ok.1 hbs
    rw [← pure_eq_ok.1 hbs]
    exact (comprises_count hc).append (comprises_plain _)
  refine ((((((comprises_entries hints fun x _ => hplain x).append
    (comprises_entries huints fun x _ => hplain x)).append
    (comprises_entries hdoubles fun x _ => hplain x)).append
    (comprises_entries hstrings fun s _ => htext s)).append ?_).append ?_).append ?_
  · exact comprises_entries hnamespaces fun _ _ _ => comprises_namespaceBytes h
  · exact comprises_entries hsets fun _ _ _ => comprises_namespaceSetBytes h
  · exact comprises_entries hmultinames fun _ _ _ => comprises_multinameBytes h

theorem comprises_signatureBytes {signature : Signature}
    (hw : a.signatureBytes signature = .ok bytes) : Comprises unit signature.wire bytes := by
  obtain ⟨count, hc, hw⟩ := bind_eq_ok.1 hw
  obtain ⟨i, hi, hw⟩ := bind_eq_ok.1 hw
  obtain ⟨is, his, hw⟩ := bind_eq_ok.1 hw
  obtain ⟨j, hj, hw⟩ := bind_eq_ok.1 hw
  obtain ⟨optional, ho, hw⟩ := ite_bind_eq_ok.1 hw
  obtain ⟨names, hn, hw⟩ := bind_eq_ok.1 hw
  rw [← pure_eq_ok.1 hw]
  refine ((((((comprises_count hc).append (comprises_multiname h hi)).append
    (comprises_references his fun _ _ => comprises_multiname h)).append
    (comprises_name h hj)).append (comprises_plain _)).append
    (comprises_unless_empty ho fun _ _ _ => comprises_valueBytes h)).append ?_
  rcases Reader.parameterNameBytes_eq_ok.1 hn with ⟨hnil, rfl⟩ | ⟨-, -, is, his, rfl⟩
  · rw [hnil]
    exact .nil
  · exact comprises_references his fun _ _ => comprises_name h

theorem comprises_metadataBytes {entry : Metadata} (hw : a.metadataBytes entry = .ok bytes) :
    Comprises unit entry.wire bytes := by
  obtain ⟨i, hi, hw⟩ := bind_eq_ok.1 hw
  obtain ⟨items, hitems, hw⟩ := bind_eq_ok.1 hw
  rw [← pure_eq_ok.1 hw]
  refine (comprises_name h hi).append (comprises_counted hitems fun item _ bs hbs => ?_)
  obtain ⟨j, hj, hbs⟩ := bind_eq_ok.1 hbs
  obtain ⟨k, hk, hbs⟩ := bind_eq_ok.1 hbs
  rw [← pure_eq_ok.1 hbs]
  exact (comprises_name h hj).append (comprises_name h hk)

theorem comprises_memberBytes {member : Member} (hw : a.memberBytes member = .ok bytes) :
    Comprises unit member.wire bytes := by
  cases member with
  | slot kind n type value =>
    obtain ⟨i, hi, hw⟩ := bind_eq_ok.1 hw
    obtain ⟨more, hv, hw⟩ := bind_eq_ok.1 hw
    rw [← pure_eq_ok.1 hw]
    have hstart : Comprises unit [.number n, .multiname type] (Bytes.u32 n ++ Bytes.reference i) :=
      (comprises_plain _).append (comprises_multiname h hi)
    cases value with
    | none =>
      rw [← pure_eq_ok.1 hv]
      exact hstart.append (comprises_plain _)
    | some value => exact hstart.append (comprises_valueBytes h hv)
  | access kind n method =>
    obtain ⟨i, hi, hw⟩ := bind_eq_ok.1 hw
    rw [← pure_eq_ok.1 hw]
    exact (comprises_plain (Bytes.u32 n)).append (comprises_method h hi)
  | classBinding n handle =>
    obtain ⟨i, hi, hw⟩ := bind_eq_ok.1 hw
    rw [← pure_eq_ok.1 hw]
    exact (comprises_plain (Bytes.u32 n)).append (comprises_classRef h hi)
  | function n method =>
    obtain ⟨i, hi, hw⟩ := bind_eq_ok.1 hw
    rw [← pure_eq_ok.1 hw]
    exact (comprises_plain (Bytes.u32 n)).append (comprises_method h hi)

theorem comprises_traitBytes {count : Nat} {t : Trait} (hw : a.traitBytes count t = .ok bytes) :
    Comprises unit t.wire bytes := by
  obtain ⟨i, hi, hw⟩ := bind_eq_ok.1 hw
  obtain ⟨member, hm, hw⟩ := bind_eq_ok.1 hw
  obtain ⟨metadata, hmeta, hw⟩ := ite_bind_eq_ok.1 hw
  rw [← pure_eq_ok.1 hw]
  refine (((comprises_multiname h hi).append (comprises_plain _)).append
    (comprises_memberBytes h hm)).append (comprises_unless_empty hmeta fun index _ bs hbs => ?_)
  rw [Indexing.metadataReferenceBytes] at hbs
  split at hbs <;> cases hbs
  exact comprises_plain _

theorem comprises_traitsBytes {count : Nat} {traits : List Trait}
    (hw : a.traitsBytes count traits = .ok bytes) :
    Comprises unit (Item.counted Trait.wire traits) bytes :=
  comprises_counted hw fun _ _ _ => comprises_traitBytes h

theorem comprises_instanceBytes {count : Nat} {cls : ClassDefinition}
    (hw : a.instanceBytes count cls = .ok bytes) : Comprises unit cls.instanceWire bytes := by
  obtain ⟨i, hi, hw⟩ := bind_eq_ok.1 hw
  obtain ⟨j, hj, hw⟩ := bind_eq_ok.1 hw
  obtain ⟨written, hp, hw⟩ := Indexing.protected_bind_eq_ok.1 hw
  obtain ⟨interfaces, hin, hw⟩ := bind_eq_ok.1 hw
  obtain ⟨k, hk, hw⟩ := bind_eq_ok.1 hw
  obtain ⟨traits, ht, hw⟩ := bind_eq_ok.1 hw
  rw [← pure_eq_ok.1 hw]
  have hprotected : Comprises unit (cls.protectedNamespace.toList.map fun ns =>
      .value (.nspace ns)) written := by
    cases hns : cls.protectedNamespace with
    | none =>
      rw [hns] at hp
      rw [← pure_eq_ok.1 hp]
      exact .nil
    | some ns =>
      rw [hns] at hp
      obtain ⟨k, hk, rfl⟩ := map_eq_ok.1 hp
      exact comprises_nspace h hk
  exact ((((((comprises_multiname h hi).append (comprises_multiname h hj)).append
    (comprises_plain _)).append hprotected).append (comprises_counted hin fun _ _ _ hbs =>
      comprises_reference hbs fun _ => comprises_multiname h)).append
    (comprises_method h hk)).append (comprises_traitsBytes h ht)

theorem comprises_staticBytes {count : Nat} {cls : ClassDefinition}
    (hw : a.staticBytes count cls = .ok bytes) : Comprises unit cls.staticWire bytes := by
  obtain ⟨i, hi, hw⟩ := bind_eq_ok.1 hw
  obtain ⟨traits, ht, hw⟩ := bind_eq_ok.1 hw
  rw [← pure_eq_ok.1 hw]
  exact (comprises_method h hi).append (comprises_traitsBytes h ht)

theorem comprises_scriptBytes {count : Nat} {script : Script}
    (hw : a.scriptBytes count script = .ok bytes) : Comprises unit script.wire bytes := by
  obtain ⟨i, hi, hw⟩ := bind_eq_ok.1 hw
  obtain ⟨traits, ht, hw⟩ := bind_eq_ok.1 hw
  rw [← pure_eq_ok.1 hw]
  exact (comprises_method h hi).append (comprises_traitsBytes h ht)

/-! ## Code -/

theorem comprises_operandBytes {distance : InstructionId → Except Fault Int} {operand : Operand}
    (hw : operand.bytes a distance = .ok bytes) : Comprises unit [operand.wire] bytes := by
  cases operand with
  | u8 | s8 | u30 =>
    cases hw
    exact comprises_plain _
  | int | uint | double | string | nspace =>
    obtain ⟨i, hi, rfl⟩ := map_eq_ok.1 hw
    exact comprises_value h hi
  | multiname name =>
    obtain ⟨i, hi, rfl⟩ := map_eq_ok.1 hw
    exact comprises_multiname h hi
  | method handle =>
    obtain ⟨i, hi, rfl⟩ := map_eq_ok.1 hw
    exact comprises_method h hi
  | classRef handle =>
    obtain ⟨i, hi, rfl⟩ := map_eq_ok.1 hw
    exact comprises_classRef h hi
  | target place => exact comprises_item (Operand.length_target hw)

theorem comprises_emissionBytes {distance : InstructionId → Except Fault Int} {emission : Emission}
    (hw : emission.bytes a distance = .ok bytes) : Comprises unit emission.wire bytes := by
  obtain ⟨pieces, hp, hw⟩ := bind_eq_ok.1 hw
  rw [← pure_eq_ok.1 hw]
  have hoperands : Comprises unit (emission.operands.flatMap fun operand => [operand.wire])
      pieces.flatten := comprises_mapM hp fun _ _ _ => comprises_operandBytes h
  rw [← List.map_eq_flatMap] at hoperands
  exact (comprises_plain [emission.opcode.byte]).append hoperands

/-- Code is one instruction after another, in the order in which they are laid out. -/
theorem comprises_assemble {emissions : List Emission} {handlers : List (Handler CodePosition)}
    {places : List (Handler UInt32)} (hw : assemble a emissions handlers = .ok (bytes, places)) :
    Comprises unit (emissions.flatMap Emission.wire) bytes := by
  obtain ⟨layout, pieces, hl, hpieces, rfl, -⟩ := assemble_eq_ok.1 hw
  obtain ⟨stop, hout⟩ := laidOut_of_layOut hl
  rw [← hout.map_emission, List.flatMap_map]
  exact comprises_mapM (mapM_eq_ok.2 hpieces) fun _ _ _ => comprises_emissionBytes h

theorem comprises_handlerBytes {handler : Handler UInt32}
    (hw : a.handlerBytes handler = .ok bytes) : Comprises unit handler.wire bytes := by
  obtain ⟨i, hi, hw⟩ := bind_eq_ok.1 hw
  obtain ⟨j, hj, hw⟩ := bind_eq_ok.1 hw
  rw [← pure_eq_ok.1 hw]
  have hextent (n : UInt32) : Comprises unit [.extent] (Bytes.u32 n) := comprises_item ⟨n, rfl⟩
  exact ((((hextent _).append (hextent _)).append (hextent _)).append
    (comprises_multiname h hi)).append (comprises_multiname h hj)

omit h in
/-- The items of a handler do not hang on its places. -/
theorem counted_handlers {π ρ : Type} {f : π → Except Fault ρ} {handlers : List (Handler π)}
    {placed : List (Handler ρ)}
    (hp : List.Forall₂ (fun handler placed => Handler.mapM f handler = .ok placed)
      handlers placed) :
    Item.counted Handler.wire placed = Item.counted Handler.wire handlers := by
  have hwire : handlers.map Handler.wire = placed.map Handler.wire :=
    map_eq_map_iff.2 (hp.imp fun handler placed hm => by
      have hcaught := Handler.caught_of_mapM hm
      rw [Handler.caught, Handler.caught, Prod.mk.injEq] at hcaught
      rw [Handler.wire, Handler.wire, hcaught.1, hcaught.2])
  rw [Item.counted, Item.counted, hp.length_eq, List.flatMap_def, List.flatMap_def, hwire]

theorem comprises_bodyBytes {count : Nat} {debug : Bool} {handle : MethodHandle} {method : Method}
    {body : Body} {emissions : List Emission} {code : Bytes} {places : List (Handler UInt32)}
    (he : method.emissions body.code debug = .ok emissions)
    (ha : assemble a emissions body.code.handlers = .ok (code, places))
    (hw : a.bodyBytes count handle body.toFrame code places = .ok bytes) :
    Comprises unit (method.bodyWire debug handle body) bytes := by
  obtain ⟨i, hi, hw⟩ := bind_eq_ok.1 hw
  obtain ⟨length, hl, hw⟩ := bind_eq_ok.1 hw
  obtain ⟨handlers, hh, hw⟩ := bind_eq_ok.1 hw
  obtain ⟨traits, ht, hw⟩ := bind_eq_ok.1 hw
  rw [← pure_eq_ok.1 hw, Method.bodyWire, Method.codeWire, he]
  obtain ⟨_, _, -, -, -, hplaces⟩ := assemble_eq_ok.1 ha
  rw [← counted_handlers hplaces]
  have hextent : Comprises unit [.extent] length := by
    rw [← (Reader.index_eq_ok.1 hl).2]
    exact comprises_item ⟨_, rfl⟩
  exact ((((((((comprises_method h hi).append (comprises_plain _)).append
    (comprises_plain _)).append (comprises_plain _)).append (comprises_plain _)).append
    hextent).append (comprises_assemble h ha)).append
    (comprises_counted hh fun _ _ _ => comprises_handlerBytes h)).append
    (comprises_traitsBytes h ht)

end

/-! ## Units -/

section
variable {plain unit : CodeUnit} {a : Indexing} {bytes : Bytes} (h : unit.Reflects a)
include h

theorem comprises_classesBytes {count : Nat} {classes : List ClassDefinition}
    (hw : a.classesBytes count classes = .ok bytes) :
    Comprises unit (Item.counted ClassDefinition.instanceWire classes ++
      classes.flatMap ClassDefinition.staticWire) bytes := by
  obtain ⟨instances, hi, hw⟩ := bind_eq_ok.1 hw
  obtain ⟨statics, hs, hw⟩ := bind_eq_ok.1 hw
  rw [← pure_eq_ok.1 hw]
  exact (comprises_counted hi fun _ _ _ => comprises_instanceBytes h).append
    (comprises_mapM hs fun _ _ _ => comprises_staticBytes h)

omit h in
/-- What was assembled is the bodies of the unit, in order. -/
theorem CodeUnit.forall₂_assembleBodies {debug : Bool} {bodies : List AssembledBody}
    (hb : plain.assembleBodies a debug = .ok bodies) :
    List.Forall₂ (fun entry assembled => ∃ emissions code places,
        entry.2.1.emissions entry.2.2.code debug = .ok emissions ∧
        assemble a emissions entry.2.2.code.handlers = .ok (code, places) ∧
        assembled = ⟨entry.1, entry.2.2.toFrame, code, places⟩)
      (plain.bodiesIn a.methods.values) bodies := by
  obtain ⟨found, hf, hb⟩ := bind_eq_ok.1 hb
  rw [← pure_eq_ok.1 hb]
  refine List.rel_filterMap ?_ (mapM_eq_ok.1 hf)
  intro entry assembled hm
  dsimp only
  cases assembled with
  | none =>
    rw [assembleBody_eq_none.1 hm]
    exact .none
  | some assembled =>
    obtain ⟨body, emissions, code, places, hbody, he, ha, rfl⟩ := assembleBody_eq_some.1 hm
    rw [hbody]
    exact .some ⟨emissions, code, places, he, ha, rfl⟩

theorem comprises_bodies {count : Nat} {debug : Bool} {bodies : List AssembledBody}
    (hb : plain.assembleBodies a debug = .ok bodies)
    (hw : Bytes.list (fun body => a.bodyBytes count (AssembledBody.method body) body.frame body.code
      body.handlers) bodies = .ok bytes) :
    Comprises unit (Item.counted (fun entry => entry.2.1.bodyWire debug entry.1 entry.2.2)
      (plain.bodiesIn a.methods.values)) bytes := by
  have hforall := CodeUnit.forall₂_assembleBodies hb
  obtain ⟨length, hl, hw⟩ := bind_eq_ok.1 hw
  obtain ⟨pieces, hp, hw⟩ := bind_eq_ok.1 hw
  rw [← pure_eq_ok.1 hw]
  rw [← hforall.length_eq] at hl
  refine (comprises_count hl).append (comprises_flatten ?_)
  refine forall₂_comp hforall (mapM_eq_ok.1 hp) fun entry _ assembled piece hentry hpiece => ?_
  obtain ⟨emissions, code, places, he, ha, rfl⟩ := hentry
  exact comprises_bodyBytes h he ha hpiece

end

/-- The bytes of a unit that is rebuilt are made up of its items. -/
theorem CodeUnit.Rebuilds.comprises {plain : CodeUnit} {options : EncodeOptions}
    {order : List ClassHandle} {s : Sections} {rebuilt : Rebuilt}
    (hr : plain.Rebuilds options order s rebuilt) :
    Comprises (plain.commit rebuilt)
      (plain.wire (plain.commit rebuilt) options.debugInstrumentation) rebuilt.bytes := by
  have h : (plain.commit rebuilt).Reflects rebuilt.indexing :=
    ⟨rfl, rfl, rfl, Indexing.sizes_of_poolBytes hr.pool⟩
  rw [← hr.bytes_eq]
  exact ((((((comprises_plain _).append (comprises_poolBytes h hr.pool)).append
    (comprises_counted hr.signatures fun _ _ _ => comprises_signatureBytes h)).append
    (comprises_counted hr.metadata fun _ _ _ => comprises_metadataBytes h)).append
    (comprises_classesBytes h hr.classes)).append
    (comprises_counted hr.scripts fun _ _ _ => comprises_scriptBytes h)).append
    (comprises_bodies h hr.assembled hr.bodies)

/-- **Every index in the bytes is that of what stands there.**  The bytes of a unit that is written
    anew are its items one after another.  So each literal of its code, each marker that is put
    into it and each default has an index above 0, with the very value in the table, and a name
    has the index 0 if and only if it is missing or `*`. -/
theorem Edit.items_written {options : EncodeOptions} {unit later : CodeUnit} {bytes : Bytes}
    (ht : unit.isTampered = true) (he : encode options unit = .ok bytes later) :
    ∃ plain, disassemble unit = .ok () plain ∧
      Comprises later (plain.wire later options.debugInstrumentation) bytes := by
  obtain ⟨plain, order, s, rebuilt, hd, hr, rfl, rfl⟩ := rebuilds_of_encode ht he
  exact ⟨plain, hd, hr.comprises⟩

/-- A method named `*` whose literals are those at index 0: numbers, a string and a default. -/
def sentinelUnit : CodeUnit :=
  [.createMethod {
      signature := { name := some "*", parameters := [.any], optional := [.int 0] }
      body := some {
        code := .symbolic [⟨⟨0⟩, .pushInt, [.int 0]⟩, ⟨⟨1⟩, .pushUint, [.uint 0]⟩,
          ⟨⟨2⟩, .pushDouble, [.double .nan]⟩, ⟨⟨3⟩, .pushString, [.string "*"]⟩,
          ⟨⟨4⟩, .returnVoid, []⟩] [] } }].foldl
      (fun unit (operation : Operation) => operation.run unit) .empty

/-- The literals stand in their tables a second time. -/
theorem items_written_sentinelUnit : ∃ bytes later plain,
    Edit.encode { debugInstrumentation := true } sentinelUnit = .ok bytes later ∧
      Edit.disassemble sentinelUnit = .ok () plain ∧
      later.pool.ints = #[0, 0] ∧ later.pool.uints = #[0, 0] ∧
      later.pool.doubles = #[.nan, .nan] ∧ later.pool.strings = #["*", "*"] ∧
      Comprises later (plain.wire later true) bytes := by
  have hok : ((Edit.encode { debugInstrumentation := true }).outcome sentinelUnit).isOk = true := by
    decide +kernel
  obtain ⟨bytes, he⟩ := Edit.exists_ok_of_outcome hok
  obtain ⟨hints, huints, hdoubles, hstrings⟩ :
      let pool := ((Edit.encode { debugInstrumentation := true }).after sentinelUnit).pool
      pool.ints = #[0, 0] ∧ pool.uints = #[0, 0] ∧ pool.doubles = #[.nan, .nan] ∧
        pool.strings = #["*", "*"] := by decide +kernel
  obtain ⟨plain, hd, hitems⟩ := Edit.items_written (by decide +kernel) he
  exact ⟨bytes, _, plain, he, hd, hints, huints, hdoubles, hstrings, hitems⟩

end ActionBytecode
