/-
  ActionBytecode — where the namespaces of a unit come from.

  A namespace can stand in the pool of a unit, and in all that its declarations and its code refer
  to, inside of sets and of multinames.  `CodeUnit.Over known unit` says that all of them are known.
  Nothing but what is passed in brings a namespace into a unit:

  * `Pool.Over.addMultiname`: a constant joins a pool with what it needs and no more;
  * `CodeUnit.over_of_decode`: what is read refers to the pool that was read;
  * `Method.Converted.over`: so does the code that is disassembled;
  * `CodeUnit.Over.commit`: a pool that is made anew has what the unit refers to.
-/
import ActionBytecode.Proofs.Forms
import ActionBytecode.Proofs.Handles
import ActionBytecode.Proofs.PoolContents

namespace ActionBytecode

/-! ## Constants -/

namespace Constant

/-- Every namespace in the constant is known. -/
def Over (known : Namespace → Prop) (c : Constant) : Prop :=
  ∀ ns, c.Brings (.nspace ns) → known ns

variable {known : Namespace → Prop} {c d : Constant}

theorem Over.brings (h : c.Over known) (hb : c.Brings d) : d.Over known :=
  fun ns hns => h ns (hb.trans hns)

theorem Over.needs (h : c.Over known) (hn : c.Needs d) : d.Over known := h.brings (.single hn)

/-- The namespaces in a constant are itself and those in what it needs. -/
theorem over_iff :
    c.Over known ↔ (∀ ns, c = .nspace ns → known ns) ∧ ∀ d, c.Needs d → d.Over known := by
  constructor
  · exact fun h => ⟨fun ns hc => h ns (hc ▸ .refl), fun d => h.needs⟩
  · rintro ⟨hself, hneeds⟩ ns hb
    rcases hb.cases_head with hc | ⟨d, hn, hb⟩
    · exact hself ns hc
    · exact hneeds d hn ns hb

theorem over_of_literal (hc : ∀ ns, c ≠ .nspace ns) (hn : ∀ d, ¬ c.Needs d) : c.Over known :=
  over_iff.2 ⟨fun ns h => absurd h (hc ns), fun d h => absurd h (hn d)⟩

@[simp] theorem over_int (value : Int32) : (int value).Over known :=
  over_of_literal (by rintro _ ⟨⟩) (by rintro _ ⟨⟩)

@[simp] theorem over_uint (value : UInt32) : (uint value).Over known :=
  over_of_literal (by rintro _ ⟨⟩) (by rintro _ ⟨⟩)

@[simp] theorem over_double (value : Double) : (double value).Over known :=
  over_of_literal (by rintro _ ⟨⟩) (by rintro _ ⟨⟩)

@[simp] theorem over_string (value : String) : (string value).Over known :=
  over_of_literal (by rintro _ ⟨⟩) (by rintro _ ⟨⟩)

@[simp] theorem over_nspace {ns : Namespace} : (nspace ns).Over known ↔ known ns := by
  refine over_iff.trans ⟨fun h => h.1 ns rfl, fun h => ⟨?_, ?_⟩⟩
  · rintro _ ⟨⟩
    exact h
  · rintro _ ⟨⟩
    exact over_string _

@[simp] theorem over_namespaceSet {set : NamespaceSet} :
    (namespaceSet set).Over known ↔ ∀ ns ∈ set, known ns := by
  refine over_iff.trans ⟨fun h ns hns => over_nspace.1 (h.2 _ (.member hns)), fun h => ⟨?_, ?_⟩⟩
  · rintro _ ⟨⟩
  · rintro _ ⟨⟩
    next ns hns => exact over_nspace.2 (h ns hns)

theorem over_multiname {name : Multiname} (h : ∀ d, (multiname name).Needs d → d.Over known) :
    (multiname name).Over known :=
  over_iff.2 ⟨by rintro _ ⟨⟩, h⟩

end Constant

/-! ## Pools -/

namespace Pool

/-- The constant is in its table. -/
def Has (pool : Pool) : Constant → Prop
  | .int value => value ∈ pool.ints
  | .uint value => value ∈ pool.uints
  | .double value => value ∈ pool.doubles
  | .string value => value ∈ pool.strings
  | .nspace ns => ns ∈ pool.namespaces
  | .namespaceSet set => set ∈ pool.namespaceSets
  | .multiname name => name ∈ pool.multinames

/-- Every namespace in the pool is known. -/
def Over (known : Namespace → Prop) (pool : Pool) : Prop := ∀ c, pool.Has c → c.Over known

variable {known : Namespace → Prop} {pool : Pool} {c d : Constant}

/-- Only three of the tables can hold a namespace. -/
theorem over_iff : pool.Over known ↔ (∀ ns ∈ pool.namespaces, known ns) ∧
    (∀ set ∈ pool.namespaceSets, ∀ ns ∈ set, known ns) ∧
    ∀ name ∈ pool.multinames, (Constant.multiname name).Over known := by
  constructor
  · intro h
    exact ⟨fun ns hns => Constant.over_nspace.1 (h (.nspace ns) hns),
      fun set hset => Constant.over_namespaceSet.1 (h (.namespaceSet set) hset),
      fun name hname => h (.multiname name) hname⟩
  · rintro ⟨hnamespaces, hsets, hnames⟩ c hc
    cases c with
    | nspace ns => exact Constant.over_nspace.2 (hnamespaces ns hc)
    | namespaceSet set => exact Constant.over_namespaceSet.2 (hsets set hc)
    | multiname name => exact hnames name hc
    | int | uint | double | string => simp

theorem Closed.has_of_needs (h : pool.Closed) (hc : pool.Has c) (hn : c.Needs d) : pool.Has d := by
  cases hn with
  | namespaceName => exact h.names _ hc
  | member hns => exact h.members _ hc _ hns
  | qualifier => exact (h.parts _ hc).1
  | qualifiedName => exact (h.parts _ hc).2
  | runtimeName => exact h.parts _ hc
  | ambiguousName => exact (h.parts _ hc).1
  | ambiguousSet => exact (h.parts _ hc).2
  | lateSet => exact h.parts _ hc
  | base => exact (h.parts _ hc).1
  | parameter hp => exact (h.parts _ hc).2 _ hp

/-- **Every namespace in a closed pool is in its table of namespaces.** -/
theorem Closed.over (h : pool.Closed) : pool.Over (· ∈ pool.namespaces) := by
  intro c hc ns hb
  have hbrought : ∀ d, c.Brings d → pool.Has d := by
    intro d hd
    induction hd with
    | refl => exact hc
    | tail _ hn ih => exact h.has_of_needs ih hn
  exact hbrought (.nspace ns) hb

/-! ## Constants that join -/

/-- Constants of the other tables do not matter. -/
theorem Over.of_eq (h : pool.Over known) {later : Pool} (hn : later.namespaces = pool.namespaces)
    (hs : later.namespaceSets = pool.namespaceSets) (hm : later.multinames = pool.multinames) :
    later.Over known := by
  rw [over_iff, hn, hs, hm]
  exact over_iff.1 h

theorem Over.addInt (h : pool.Over known) (value : Int32) : (pool.addInt value).Over known :=
  h.of_eq rfl rfl rfl

theorem Over.addUint (h : pool.Over known) (value : UInt32) : (pool.addUint value).Over known :=
  h.of_eq rfl rfl rfl

theorem Over.addDouble (h : pool.Over known) (value : Double) :
    (pool.addDouble value).Over known :=
  h.of_eq rfl rfl rfl

theorem Over.addString (h : pool.Over known) (value : String) :
    (pool.addString value).Over known :=
  h.of_eq rfl rfl rfl

theorem Over.addNamespace (h : pool.Over known) {ns : Namespace} (hns : known ns) :
    (pool.addNamespace ns).Over known := by
  obtain ⟨hnamespaces, hrest⟩ := over_iff.1 h
  refine over_iff.2 ⟨fun other ho => ?_, hrest⟩
  rcases mem_intern.1 ho with ho | rfl
  · exact hnamespaces other ho
  · exact hns

theorem Over.addNamespaceSet (h : pool.Over known) {set : NamespaceSet}
    (hset : ∀ ns ∈ set, known ns) : (pool.addNamespaceSet set).Over known := by
  have hmembers : ∀ (members : List Namespace) (pool : Pool), pool.Over known →
      (∀ ns ∈ members, known ns) → (members.foldl Pool.addNamespace pool).Over known := by
    intro members
    induction members with
    | nil => exact fun _ hp _ => hp
    | cons ns members ih =>
      intro pool hp hm
      rw [List.forall_mem_cons] at hm
      exact ih _ (hp.addNamespace hm.1) hm.2
  obtain ⟨hnamespaces, hsets, hnames⟩ := over_iff.1 (hmembers set.members pool h hset)
  refine over_iff.2 ⟨hnamespaces, fun other ho => ?_, hnames⟩
  rcases mem_intern.1 ho with ho | rfl
  · exact hsets other ho
  · exact hset

theorem Over.addMultinameEntry (h : pool.Over known) {name : Multiname}
    (hname : (Constant.multiname name).Over known) : (pool.addMultinameEntry name).Over known := by
  obtain ⟨hnamespaces, hsets, hnames⟩ := over_iff.1 h
  refine over_iff.2 ⟨hnamespaces, hsets, fun other ho => ?_⟩
  rcases mem_intern.1 ho with ho | rfl
  · exact hnames other ho
  · exact hname

mutual
/-- **A multiname brings no namespace into a pool but its own.** -/
theorem Over.addMultiname : ∀ (name : Multiname) {pool : Pool}, pool.Over known →
    (Constant.multiname name).Over known → (pool.addMultiname name).Over known
  | .qualified attr ns name, pool, h, hname => by
    rw [Pool.addMultiname]
    exact ((h.addString name).addNamespace
      (Constant.over_nspace.1 (hname.needs .qualifier))).addMultinameEntry hname
  | .runtimeQualified attr name, pool, h, hname => by
    rw [Pool.addMultiname]
    exact (h.addString name).addMultinameEntry hname
  | .runtime attr, pool, h, hname => by
    rw [Pool.addMultiname]
    exact h.addMultinameEntry hname
  | .ambiguous attr name set, pool, h, hname => by
    rw [Pool.addMultiname]
    exact ((h.addString name).addNamespaceSet
      (Constant.over_namespaceSet.1 (hname.needs .ambiguousSet))).addMultinameEntry hname
  | .late attr set, pool, h, hname => by
    rw [Pool.addMultiname]
    exact (h.addNamespaceSet
      (Constant.over_namespaceSet.1 (hname.needs .lateSet))).addMultinameEntry hname
  | .applied base params, pool, h, hname => by
    rw [Pool.addMultiname]
    exact (Over.addMultinames params (Over.addMultiname base h (hname.needs .base))
      fun p hp => hname.needs (.parameter hp)).addMultinameEntry hname

theorem Over.addMultinames : ∀ (names : List Multiname) {pool : Pool}, pool.Over known →
    (∀ name ∈ names, (Constant.multiname name).Over known) → (pool.addMultinames names).Over known
  | [], pool, h, _ => by
    rw [Pool.addMultinames]
    exact h
  | name :: names, pool, h, hnames => by
    rw [List.forall_mem_cons] at hnames
    rw [Pool.addMultinames]
    exact Over.addMultinames names (Over.addMultiname name h hnames.1) hnames.2
end

end Pool

/-! ## References -/

/-- Every namespace in what is referred to is known. -/
def Use.Over (known : Namespace → Prop) (use : Use) : Prop :=
  ∀ c, use.constant? = some c → c.Over known

theorem over_of_mentions {known : Namespace → Prop} {uses : List Use} {c : Constant}
    (h : ∀ use ∈ uses, use.Over known) (hc : Mentions uses c) : c.Over known := by
  obtain ⟨use, hu, hc⟩ := hc
  exact h use hu c hc

theorem forall_over_iff {known : Namespace → Prop} {uses : List Use} :
    (∀ use ∈ uses, use.Over known) ↔ ∀ c, Mentions uses c → c.Over known :=
  ⟨fun h _ => over_of_mentions h, fun h use hu c hc => h c ⟨use, hu, hc⟩⟩

theorem Tables.Has.over {known : Namespace → Prop} {tables : Tables} {use : Use}
    (h : tables.Has use) (hp : tables.pool.Over known) : use.Over known := by
  intro c hc
  cases use with
  | value value => cases value <;> cases hc <;> exact hp _ h
  | name name =>
    obtain ⟨s, -, rfl⟩ := Option.map_eq_some_iff.1 hc
    simp
  | multiname name =>
    cases hc
    exact hp _ h
  | method | instructionClass | traitClass => cases hc

/-! ## Units -/

/-- What a method refers to apart from its instructions. -/
def Method.declaredUses (method : Method) : List Use :=
  method.declared.1.uses ++ method.declared.2.toList.flatMap fun (frame, caught) =>
    frame.traits.flatMap Trait.uses ++
      caught.flatMap fun (catchType, variableName) =>
        [.multiname catchType, .multiname variableName]

/-- All that a method refers to, its code in either form.  Raw code refers to what is in the pool
    only by index. -/
def Method.references (method : Method) : List Use :=
  method.declaredUses ++
    method.instructions.flatMap fun instruction => instruction.operands.flatMap Operand.uses

theorem Method.forall_declaredUses {p : Use → Prop} {method : Method} :
    (∀ use ∈ method.declaredUses, p use) ↔ (∀ use ∈ method.toSignature.uses, p use) ∧
      ∀ body, method.body = some body → (∀ use ∈ body.traits.flatMap Trait.uses, p use) ∧
        ∀ use ∈ body.code.handlers.flatMap Handler.uses, p use := by
  have hcaught (code : Code) : (code.caught.flatMap fun (catchType, variableName) =>
      [Use.multiname catchType, .multiname variableName]) = code.handlers.flatMap Handler.uses := by
    rw [Code.caught, List.flatMap_map]
    rfl
  obtain ⟨signature, body⟩ := method
  cases body with
  | none => simp [declaredUses, declared]
  | some body =>
    simp only [declaredUses, declared, Option.map_some, Option.toList_some, List.flatMap_cons,
      List.flatMap_nil, List.append_nil, hcaught, List.forall_mem_append, Option.some.injEq,
      forall_eq']

/-- Every namespace in what the code refers to is known. -/
def Code.Over (known : Namespace → Prop) : Code → Prop
  | raw _ handlers => ∀ handler ∈ handlers, ∀ use ∈ handler.uses, use.Over known
  | symbolic instructions handlers =>
    (∀ handler ∈ handlers, ∀ use ∈ handler.uses, use.Over known) ∧
      ∀ instruction ∈ instructions, ∀ operand ∈ instruction.operands, ∀ use ∈ operand.uses,
        use.Over known

/-- The places of a method that can refer to something. -/
theorem Method.over_references {known : Namespace → Prop} {method : Method} :
    (∀ use ∈ method.references, use.Over known) ↔
      (∀ use ∈ method.toSignature.uses, use.Over known) ∧
      ∀ body, method.body = some body →
        (∀ t ∈ body.traits, ∀ use ∈ t.uses, use.Over known) ∧ body.code.Over known := by
  rw [references, List.forall_mem_append, forall_declaredUses, and_assoc]
  refine and_congr_right fun _ => ?_
  obtain ⟨signature, _ | ⟨frame, ⟨bytes | instructions, handlers⟩⟩⟩ := method
  · simp [Method.instructions]
  · simp only [Option.some.injEq, forall_eq', List.forall_mem_flatMap]
    simp [Method.instructions, Code.Over]
  · simp only [Option.some.injEq, forall_eq', List.forall_mem_flatMap]
    simp [Method.instructions, Code.Over, and_assoc]

/-- Raw code has no instructions that could refer to anything. -/
theorem Method.over_of_declared {known : Namespace → Prop} {method : Method}
    (hraw : method.isSymbolic = false) (h : ∀ use ∈ method.declaredUses, use.Over known) :
    ∀ use ∈ method.references, use.Over known := by
  have hnone : method.instructions = [] := by
    obtain ⟨signature, _ | ⟨frame, ⟨_ | _, _⟩⟩⟩ := method
    · rfl
    · rfl
    · cases hraw
  rwa [references, hnone, List.flatMap_nil, List.append_nil]

namespace CodeUnit

/-- The constants that stand in the pool of the unit or in what it declares. -/
inductive Holds (unit : CodeUnit) (c : Constant) : Prop
  | ofPool (h : unit.pool.Has c)
  | ofMethod {method : Method} (hm : method ∈ unit.methods) (h : Mentions method.references c)
  | ofClass {cls : ClassDefinition} (hc : cls ∈ unit.classes) (h : Mentions cls.uses c)
  | ofScript {script : Script} (hs : script ∈ unit.scripts) (h : Mentions script.uses c)

/-- The namespace stands in the unit, perhaps in a set or in a multiname. -/
def Contains (unit : CodeUnit) (ns : Namespace) : Prop :=
  ∃ c, unit.Holds c ∧ c.Brings (.nspace ns)

/-- Every namespace in the unit is known. -/
structure Over (known : Namespace → Prop) (unit : CodeUnit) : Prop where
  pool : unit.pool.Over known
  methods : ∀ method ∈ unit.methods, ∀ use ∈ method.references, use.Over known
  classes : ∀ cls ∈ unit.classes, ∀ use ∈ cls.uses, use.Over known
  scripts : ∀ script ∈ unit.scripts, ∀ use ∈ script.uses, use.Over known

theorem over_iff {known : Namespace → Prop} {unit : CodeUnit} :
    unit.Over known ↔ ∀ ns, unit.Contains ns → known ns := by
  constructor
  · rintro h ns ⟨c, hc, hb⟩
    refine (?_ : c.Over known) ns hb
    cases hc with
    | ofPool hc => exact h.pool c hc
    | ofMethod hm hc => exact over_of_mentions (h.methods _ hm) hc
    | ofClass hm hc => exact over_of_mentions (h.classes _ hm) hc
    | ofScript hm hc => exact over_of_mentions (h.scripts _ hm) hc
  · intro h
    have hover {c : Constant} (hc : unit.Holds c) : c.Over known := fun ns hb => h ns ⟨c, hc, hb⟩
    exact ⟨fun c hc => hover (.ofPool hc),
      fun method hm => forall_over_iff.2 fun c hc => hover (.ofMethod hm hc),
      fun cls hm => forall_over_iff.2 fun c hc => hover (.ofClass hm hc),
      fun script hm => forall_over_iff.2 fun c hc => hover (.ofScript hm hc)⟩

end CodeUnit

theorem forall_mem_push {α : Type} {p : α → Prop} {xs : Array α} {last : α}
    (h : ∀ x ∈ xs, p x) (hl : p last) : ∀ x ∈ xs.push last, p x := by
  intro x hx
  rcases Array.mem_push.1 hx with hx | rfl
  · exact h x hx
  · exact hl

/-! ## Units that are read -/

theorem Method.Resolved.over {known : Namespace → Prop} {tables : Tables} {method : Method}
    (hp : tables.pool.Over known) (h : method.Resolved tables) :
    ∀ use ∈ method.references, use.Over known := by
  refine over_of_declared h.raw (forall_declaredUses.2
    ⟨fun use hu => (h.signature use hu).over hp, fun body hb => ?_⟩)
  obtain ⟨htraits, hhandlers⟩ := h.body body hb
  exact ⟨fun use hu => (htraits use hu).over hp, fun use hu => (hhandlers use hu).over hp⟩

theorem CodeUnit.Resolved.over {unit : CodeUnit} {limit : Nat} (h : unit.Resolved limit) :
    unit.Over (· ∈ unit.pool.namespaces) := by
  have hover := h.pool.toClosed.over
  exact ⟨hover, fun method hm => (h.methods method hm).over hover,
    fun cls hc use hu => (h.classes cls hc use hu).over hover,
    fun script hs use hu => (h.scripts script hs use hu).over hover⟩

/-- **A unit that was read contains the namespaces of its table and no others.**  A private one is
    numbered by its index, and the numbers go on from there. -/
theorem CodeUnit.over_of_decode {bytes : Bytes} {unit : CodeUnit} (h : decode bytes = .ok unit) :
    unit.Over (· ∈ unit.pool.namespaces) ∧ unit.pool.Sound bytes.length ∧
      unit.nextPrivate = .ofNat unit.pool.namespaces.size := by
  obtain ⟨parsed, cursor, methods, hp, hexamined, rfl⟩ := examined_of_decode h
  have hresolved := (Reader.resolved_of_unit hp).1
  have hover := hresolved.over
  refine ⟨⟨hover.pool, fun method hm => ?_, hover.classes, hover.scripts⟩, hresolved.pool,
    hresolved.nextPrivate⟩
  -- a method that was examined only learned its source file
  obtain ⟨original, ho, he⟩ := exists_mem_left hexamined (List.mem_toArray.1 hm)
  obtain ⟨⟨file, rfl⟩, -⟩ := he.exists_disassemble
  exact hover.methods original (Array.mem_toList_iff.1 ho)

/-- No code of a unit that was read is symbolic. -/
theorem CodeUnit.isSymbolic_of_decode {bytes : Bytes} {unit : CodeUnit}
    (h : decode bytes = .ok unit) : ∀ method ∈ unit.methods, method.isSymbolic = false := by
  obtain ⟨parsed, cursor, methods, hp, hexamined, rfl⟩ := examined_of_decode h
  intro method hm
  obtain ⟨original, ho, he⟩ := exists_mem_left hexamined (List.mem_toArray.1 hm)
  obtain ⟨⟨file, rfl⟩, -⟩ := he.exists_disassemble
  exact ((Reader.resolved_of_unit hp).1.methods original (Array.mem_toList_iff.1 ho)).raw

/-! ## Code that is disassembled and written -/

variable {known : Namespace → Prop}

/-- **The code of a method refers to what is in the tables once it is disassembled.** -/
theorem Method.Converted.over {tables : Tables} {method later : Method}
    (hp : tables.pool.Over known) (hm : ∀ use ∈ method.references, use.Over known)
    (h : Converted tables method later) : ∀ use ∈ later.references, use.Over known := by
  cases h with
  | @intro body bytes handlers instructions placed n m hbody hraw hcode _ _ =>
    rw [hraw] at hcode
    obtain ⟨_, _, hsymbolic, hfound, -, huses⟩ := Code.disassemble_spec hcode
    cases hsymbolic
    obtain ⟨hsignature, hold⟩ := over_references.1 hm
    obtain ⟨htraits, hhandlers⟩ := hold body hbody
    rw [hraw, Code.Over, ← List.forall_mem_flatMap, ← huses, List.forall_mem_flatMap] at hhandlers
    refine over_references.2 ⟨hsignature, ?_⟩
    rintro _ ⟨⟩
    refine ⟨htraits, hhandlers, fun instruction hi operand ho use hu => ?_⟩
    exact ((hfound.operands instruction hi operand ho).uses use hu).over hp

namespace CodeUnit

variable {unit : CodeUnit}

theorem Over.disassemble (h : unit.Over known) : (Edit.disassemble.after unit).Over known ∧
    (Edit.disassemble.after unit).nextPrivate = unit.nextPrivate := by
  have hmethods : ∀ method ∈ (Edit.disassemble.after unit).methods,
      ∀ use ∈ method.references, use.Over known := by
    intro method hm
    obtain ⟨earlier, he, hstays⟩ :=
      exists_mem_left (Edit.stays_of_disassemble unit) (Array.mem_toList_iff.2 hm)
    have hold := h.methods earlier (Array.mem_toList_iff.1 he)
    rcases hstays with rfl | hconverted
    · exact hold
    · exact hconverted.over h.pool hold
  cases hd : Edit.disassemble unit with
  | ok _ later =>
    rw [Edit.after_of_ok hd] at hmethods ⊢
    obtain ⟨_, _, -, rfl⟩ := Edit.disassemble_eq_ok.1 hd
    exact ⟨⟨h.pool, hmethods, h.classes, h.scripts⟩, rfl⟩
  | error fault later =>
    rw [Edit.after_of_error hd] at hmethods ⊢
    obtain ⟨_, _, _, _, _, _, -, -, -, rfl⟩ := Edit.disassemble_eq_error.1 hd
    exact ⟨⟨h.pool, hmethods, h.classes, h.scripts⟩, rfl⟩

/-- All that is visited when the unit is written refers to known namespaces. -/
theorem Over.of_meets (h : unit.Over known) (hplain : unit.Plain) {debug : Bool}
    {order : List ClassHandle} {use : Use} (hm : unit.Meets debug order use) :
    use.Over known := by
  intro c hc
  rcases hm with hu | ⟨method, hm, uses, hu, hmem⟩
  · simp only [uses, List.mem_append, List.mem_flatMap, List.mem_map] at hu
    rcases hu with ((⟨cls, hcls, hu⟩ | ⟨script, hs, hu⟩) | ⟨handle, -, rfl⟩) | ⟨entry, -, hu⟩
    · obtain ⟨handle, -, hcls⟩ := List.mem_filterMap.1 hcls
      exact h.classes cls (mem_classes_iff.2 ⟨handle, hcls⟩) use hu c hc
    · exact h.scripts script hs use hu c hc
    · cases hc
    · rcases Metadata.mentions_uses.1 ⟨use, hu, hc⟩ with
        ⟨-, rfl⟩ | ⟨item, -, ⟨key, -, -, rfl⟩ | ⟨-, rfl⟩⟩ <;> simp
  · obtain ⟨hsignature, hbody⟩ := Method.over_references.1 (h.methods method hm)
    rcases (mentions_method (hplain method hm) hu).1 ⟨use, hmem, hc⟩ with
      hc | ⟨body, instructions, handlers, hb, hcode, hc⟩
    · exact over_of_mentions hsignature hc
    · obtain ⟨htraits, hover⟩ := hbody body hb
      rw [hcode] at hover
      obtain ⟨hhandlers, hoperands⟩ := hover
      rcases hc with ⟨instruction, hi, operand, ho, hc⟩ | ⟨-, -, rfl⟩ | ⟨handler, hh, hc⟩ |
        ⟨t, ht, hc⟩
      · exact over_of_mentions (hoperands instruction hi operand ho) (Operand.mentions_uses.2 hc)
      · simp
      · exact over_of_mentions (hhandlers handler hh) hc
      · exact over_of_mentions (htraits t ht) hc

/-- A unit that is written anew has no constants but those that it refers to. -/
theorem Over.index (h : unit.Over known) (hplain : unit.Plain) (hglobal : known .global)
    {debug : Bool} {order : List ClassHandle} {a : Indexing}
    (ha : unit.index debug order = .ok a) {c : Constant} (hc : a.Has c) : c.Over known := by
  have hmeets : ∀ handle method uses, unit.method? handle = some method →
      method.uses debug = .ok uses → ∀ use ∈ uses, unit.Meets debug order use :=
    fun handle method uses hm hu use hmem =>
      .inr ⟨method, mem_methods_iff.2 ⟨handle, hm⟩, uses, hu, hmem⟩
  rcases has_foldlM (has_visit hmeets _) (fun use hmem => Or.inl hmem) ha hc with
    hfixed | ⟨use, hu, root, hroot, hb⟩
  · rcases Indexing.has_initial.1 hfixed with rfl | rfl | rfl
    · exact Constant.over_nspace.2 hglobal
    · simp [NamespaceSet.empty, NamespaceSet.mem_def]
    · refine Constant.over_multiname ?_
      rintro _ ⟨⟩ <;> simp [NamespaceSet.empty, NamespaceSet.mem_def]
  · exact (h.of_meets hplain hu root hroot).brings hb

/-- **Writing a unit brings no namespace into it.** -/
theorem Over.commit (h : unit.Over known) (ho : unit.Ordered) (hplain : unit.Plain)
    (hglobal : known .global) {options : EncodeOptions} {rebuilt : Rebuilt}
    (hr : unit.rebuild options = .ok rebuilt) : (unit.commit rebuilt).Over known := by
  obtain ⟨order, s, hrebuilds⟩ := rebuild_eq_ok.1 hr
  have hindexed {c : Constant} (hc : rebuilt.indexing.Has c) : c.Over known :=
    h.index hplain hglobal hrebuilds.index_eq hc
  refine ⟨Pool.over_iff.2 ⟨fun ns hns => ?_, fun set hset => ?_, fun name hname => ?_⟩,
    fun method hm => ?_, h.classes, h.scripts⟩
  · exact Constant.over_nspace.1 (hindexed (List.mem_toArray.1 hns))
  · exact Constant.over_namespaceSet.1 (hindexed (List.mem_toArray.1 hset))
  · exact hindexed (List.mem_toArray.1 hname)
  · -- the instructions are gone, and what the method declares stays
    have hmem : method.declared ∈ (unit.commit rebuilt).methods.map Method.declared :=
      Array.mem_map_of_mem hm
    rw [declared_commit hr] at hmem
    obtain ⟨earlier, he, hdeclared⟩ := Array.mem_map.1 hmem
    refine Method.over_of_declared (isSymbolic_commit ho hr hm) ?_
    rw [Method.declaredUses, ← hdeclared]
    exact (List.forall_mem_append.1 (h.methods earlier he)).1

end CodeUnit

end ActionBytecode
