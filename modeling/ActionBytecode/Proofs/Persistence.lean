/-
  ActionBytecode — raw code stays readable.

  What raw code refers to is looked up when the code is disassembled, in tables that have grown
  since it was read.  Tables grow at their ends (`Tables.Extends`), so what could be read can still
  be read and gives the same (`Reader.Extends`).  An operation that does not write the unit leaves
  raw code alone or makes it symbolic, and brings none in (`Continues`).

  `Session.disassemble_later`: whatever is done to a unit that was read, as long as it is not
  written, the code that is still raw is disassembled to what it stood for at first.
-/
import ActionBytecode.Proofs.Coherence
import ActionBytecode.Proofs.Failure

namespace ActionBytecode

/-! ## Tables that grow -/

/-- What the tables have, the later ones have in the same place. -/
structure Tables.Extends (tables later : Tables) : Prop where
  pool : tables.pool.Extends later.pool
  methods : ∀ i handle, tables.method? i = some handle → later.method? i = some handle
  classes : ∀ i handle, tables.class? i = some handle → later.class? i = some handle

namespace Reader

/-- What the reader gives, the later one gives too. -/
def Extends {α : Type} (read later : Reader α) : Prop :=
  ∀ cursor a next, read cursor = .ok a next → later cursor = .ok a next

section
variable {α β : Type} {read read' : Reader α}

theorem Extends.refl (read : Reader α) : Extends read read := fun _ _ _ h => h

theorem Extends.bind {next next' : α → Reader β} (h : Extends read read')
    (h' : ∀ a, Extends (next a) (next' a)) : Extends (read >>= next) (read' >>= next') := by
  intro cursor b last hr
  obtain ⟨a, middle, ha, hb⟩ := run_bind_eq_ok.1 hr
  exact run_bind_eq_ok.2 ⟨a, middle, h cursor a middle ha, h' a middle b last hb⟩

theorem Extends.map {f : α → β} (h : Extends read read') :
    Extends (read >>= fun a => pure (f a)) (read' >>= fun a => pure (f a)) :=
  h.bind fun _ => .refl _

theorem Extends.mapM {γ : Type} {read read' : γ → Reader α}
    (h : ∀ x, Extends (read x) (read' x)) (xs : List γ) :
    Extends (xs.mapM read) (xs.mapM read') := by
  induction xs with
  | nil => exact .refl _
  | cons x xs ih =>
    rw [List.mapM_cons, List.mapM_cons]
    exact (h x).bind fun _ => ih.map

theorem extends_entry {table : Table} {find find' : Nat → Option α}
    (h : ∀ i a, find i = some a → find' i = some a) :
    Extends (entry table find) (entry table find') := by
  refine (Extends.refl _).bind fun start => (Extends.refl _).bind fun i => ?_
  cases hi : find i with
  | none => exact fun _ _ _ hr => by cases hr
  | some a =>
    rw [h i a hi]
    exact .refl _

end

variable {tables later : Tables}

theorem extends_operand (h : tables.Extends later) (kind : OperandKind) :
    Extends (operand tables kind) (operand later kind) := by
  cases kind with
  | u8 | s8 | u30 | offset => exact .refl _
  | int => exact (extends_entry fun _ _ => h.pool.ints.getElem?).map
  | uint => exact (extends_entry fun _ _ => h.pool.uints.getElem?).map
  | double => exact (extends_entry fun _ _ => h.pool.doubles.getElem?).map
  | string => exact (extends_entry fun _ _ => h.pool.strings.getElem?).map
  | nspace => exact (extends_entry fun _ _ => h.pool.namespaces.getElem?).map
  | multiname => exact (extends_entry fun _ _ => h.pool.multinames.getElem?).map
  | method => exact (extends_entry h.methods).map
  | classRef => exact (extends_entry h.classes).map

/-- **An instruction that can be read can be read from larger tables.** -/
theorem extends_instruction (h : tables.Extends later) :
    Extends (instruction tables) (instruction later) := by
  refine (Extends.refl _).bind fun start => (Extends.refl _).bind fun byte =>
    (Extends.refl _).bind fun opcode =>
    (Extends.mapM (extends_operand h) opcode.operandKinds).bind fun operands => ?_
  -- the targets of a `lookupswitch` are not looked up
  exact .refl _

end Reader

/-- Code is gone through in the same way. -/
theorem scan_extends {tables later : Tables} (h : tables.Extends later) :
    ∀ {limit : Nat} {cursor : Cursor} {n m : Nat} {code : List Placed},
      scan tables limit cursor n = .ok code m → scan later limit cursor n = .ok code m := by
  intro limit
  induction limit with
  | zero => exact fun hs => hs
  | succ limit ih =>
    intro cursor n m code hs
    rw [scan] at hs ⊢
    split
    · next hend => rwa [if_pos hend] at hs
    · next hend =>
      rw [if_neg hend] at hs
      cases hread : Reader.instruction tables cursor with
      | error fault next =>
        rw [hread] at hs
        cases hs
      | ok found next =>
        rw [hread] at hs
        rw [Reader.extends_instruction h cursor found next hread]
        obtain ⟨id, k, hid, hs⟩ := run_bind_eq_ok.1 hs
        obtain ⟨rest, l, hrest, hs⟩ := run_bind_eq_ok.1 hs
        exact run_bind_eq_ok.2 ⟨id, k, hid, run_bind_eq_ok.2 ⟨rest, l, ih hrest, hs⟩⟩

/-- **Code that can be disassembled is disassembled to the same with larger tables.** -/
theorem Code.disassemble_extends {tables later : Tables} (h : tables.Extends later) {code : Code}
    {n m : Nat} {converted : Code} (hd : code.disassemble tables n = .ok converted m) :
    code.disassemble later n = .ok converted m := by
  cases code with
  | symbolic => exact hd
  | raw bytes handlers =>
    rw [run_disassemble] at hd ⊢
    obtain ⟨found, k, hs, hd⟩ := run_bind_eq_ok.1 hd
    exact run_bind_eq_ok.2 ⟨found, k, scan_extends h hs, hd⟩

/-! ## Operations that do not write the unit -/

/-- The later unit has the tables of the earlier one, and raw code only from there. -/
structure Continues (unit later : CodeUnit) : Prop where
  pool : unit.pool.Extends later.pool
  methodOrder : unit.methodOrder <+: later.methodOrder
  classOrder : unit.classOrder <+: later.classOrder
  raw : RawFrom unit later

namespace Continues

variable {unit later : CodeUnit}

theorem refl (unit : CodeUnit) : Continues unit unit :=
  ⟨.refl _, List.prefix_refl _, List.prefix_refl _, .of_methods rfl⟩

theorem trans {a b c : CodeUnit} (h : Continues a b) (h' : Continues b c) : Continues a c :=
  ⟨h.pool.trans h'.pool, h.methodOrder.trans h'.methodOrder, h.classOrder.trans h'.classOrder,
    h.raw.trans h'.raw⟩

theorem of_kept (h : Kept unit later) : Continues unit later :=
  ⟨h.pool.toExtends, by rw [h.methodOrder], by rw [h.classOrder], h.raw⟩

theorem of_methodJoins (h : MethodJoins unit later) : Continues unit later :=
  ⟨h.pool.toExtends, by rw [h.methodOrder]; exact List.prefix_append _ _, by rw [h.classOrder],
    h.raw⟩

theorem of_classJoins (h : ClassJoins unit later) : Continues unit later :=
  ⟨h.pool.toExtends, by rw [h.methodOrder], by rw [h.classOrder]; exact List.prefix_append _ _,
    h.raw⟩

theorem tables (h : Continues unit later) : unit.tables.Extends later.tables :=
  ⟨h.pool, fun _ _ => Pool.getElem?_of_prefix h.methodOrder,
    fun _ _ => Pool.getElem?_of_prefix h.classOrder⟩

end Continues

/-- Whether the request neither reads another unit nor writes this one. -/
def Request.isEdit : Request → Bool
  | .decode _ | .apply (.encode _) => false
  | .listing _ | .apply _ => true

namespace Session

theorem continues_step (s : Session) {request : Request} (h : request.isEdit = true) :
    Continues s.unit (s.step request).unit := by
  cases request with
  | decode => cases h
  | listing handle => exact .of_kept (Edit.keeps_listing handle s.unit)
  | apply operation =>
    have hrun : (∀ options, operation ≠ .encode options) →
        Continues s.unit (operation.run s.unit) := by
      intro hne
      rcases operation.run_cases s.unit with hk | hj | hj | ⟨options, _, _, rfl, -⟩
      · exact .of_kept hk
      · exact .of_methodJoins hj
      · exact .of_classJoins hj
      · exact absurd rfl (hne options)
    cases operation with
    | encode => cases h
    | _ => exact hrun nofun

/-- **A run of edits keeps the tables, and raw code comes from before it.** -/
theorem continues_foldl {requests : List Request} :
    ∀ s : Session, (∀ request ∈ requests, request.isEdit = true) →
      Continues s.unit (requests.foldl step s).unit := by
  induction requests with
  | nil => exact fun s _ => .refl s.unit
  | cons request requests ih =>
    intro s h
    rw [List.forall_mem_cons] at h
    exact (s.continues_step h.1).trans (ih _ h.2)

end Session

/-! ## Code that was read -/

/-- All code of a unit that was read can be disassembled. -/
theorem CodeUnit.exists_disassemble_of_decode {bytes : Bytes} {unit : CodeUnit}
    (h : decode bytes = .ok unit) {handle : MethodHandle} {code : Code}
    (hc : unit.code? handle = some code) :
    ∃ n converted m, code.disassemble unit.tables n = .ok converted m := by
  obtain ⟨parsed, cursor, methods, -, hmethods, rfl⟩ := examined_of_decode h
  obtain ⟨method, hm, hc⟩ := Option.bind_eq_some_iff.1 hc
  have hm : method ∈ methods := by
    rw [method?, List.getElem?_toArray] at hm
    exact List.mem_of_getElem? hm
  obtain ⟨⟨signature, body⟩, -, hexamined⟩ := exists_mem_left hmethods hm
  rcases hexamined with ⟨hb, rfl⟩ | ⟨body, converted, n, m, hb, hd, rfl⟩
  · cases hb
    cases hc
  · cases hb
    cases hc
    exact ⟨n, converted, m, hd⟩

namespace Edit

/-- A method whose code can be disassembled is brought into symbolic form. -/
theorem disassembleMethod_of_ok {unit : CodeUnit} {handle : MethodHandle} {code converted : Code}
    {m : Nat} (hc : unit.code? handle = some code)
    (hd : code.disassemble unit.tables unit.nextInstruction = .ok converted m) :
    ∃ later, disassembleMethod handle unit = .ok () later ∧
      later.code? handle = some converted := by
  obtain ⟨method, hm, hc⟩ := Option.bind_eq_some_iff.1 hc
  obtain ⟨body, hb, rfl⟩ := Option.map_eq_some_iff.1 hc
  have hmethod : method.disassemble unit.tables unit.nextInstruction =
      .ok { method with body := some { body with code := converted } } m := by
    rw [Method.disassemble, hb]
    exact run_bind_of_ok hd
  have hconvert : convert handle unit = .ok method.isRaw
      { unit with
        methods := unit.methods.setIfInBounds handle.index
          { method with body := some { body with code := converted } }
        nextInstruction := m } := by
    rw [convert_of_some hm, hmethod]
  have hset (later : CodeUnit) (hl : later.methods = unit.methods.setIfInBounds handle.index
      { method with body := some { body with code := converted } }) :
      later.code? handle = some converted := by
    rw [CodeUnit.code?, CodeUnit.method?, hl,
      Array.getElem?_setIfInBounds_self_of_lt (CodeUnit.lt_size_of_method? hm)]
    rfl
  rw [disassembleMethod, run_bind_of_ok hconvert]
  cases method.isRaw <;> exact ⟨_, rfl, hset _ rfl⟩

/-- **A unit can be disassembled when all of its code can.** -/
theorem exists_disassemble {unit : CodeUnit}
    (h : ∀ handle code, unit.code? handle = some code →
      ∃ n converted m, code.disassemble unit.tables n = .ok converted m) :
    ∃ plain, disassemble unit = .ok () plain := by
  cases hd : disassemble unit with
  | ok _ plain => exact ⟨plain, rfl⟩
  | error fault later =>
    obtain ⟨before, failed, after, _, m, _, hsplit, -, hf, -⟩ := disassemble_eq_error.1 hd
    have hmem : failed ∈ unit.methods := by
      rw [← Array.mem_toList_iff, hsplit]
      exact List.mem_append_cons_self
    obtain ⟨handle, hm⟩ := CodeUnit.mem_methods_iff.1 hmem
    obtain ⟨signature, body⟩ := failed
    cases body with
    | none => cases hf
    | some body =>
      rcases run_bind_eq_error.1 hf with hc | ⟨_, _, -, hf⟩
      · -- code that fails at one time fails at any other
        obtain ⟨n, converted, k, hok⟩ := h handle body.code (Option.bind_eq_some_iff.2 ⟨_, hm, rfl⟩)
        obtain ⟨_, he⟩ := Code.disassemble_error hc n
        cases he.symm.trans hok
      · cases hf

end Edit

/-- **Code that is still raw is disassembled to what it stood for when it was read.**  This holds
    after any requests that do not write the unit, whichever of them failed. -/
theorem Session.disassemble_later {bytes : Bytes} {unit : CodeUnit}
    (h : CodeUnit.decode bytes = .ok unit) {requests : List Request}
    (hr : ∀ request ∈ requests, request.isEdit = true) :
    (∃ plain, Edit.disassemble (run (.decode bytes :: requests)).unit = .ok () plain) ∧
    ∀ handle code handlers,
      (run (.decode bytes :: requests)).unit.code? handle = some (.raw code handlers) →
      unit.code? handle = some (.raw code handlers) ∧
      ∃ first later instructions placed instructions' placed',
        Edit.disassembleMethod handle unit = .ok () first ∧
        Edit.disassembleMethod handle (run (.decode bytes :: requests)).unit = .ok () later ∧
        first.code? handle = some (.symbolic instructions placed) ∧
        later.code? handle = some (.symbolic instructions' placed') ∧
        (Code.symbolic instructions' placed').byPosition =
          (Code.symbolic instructions placed).byPosition := by
  have hrun : run (.decode bytes :: requests) = requests.foldl step ⟨unit, some (bytes, unit)⟩ := by
    rw [run, List.foldl_cons, step, h]
  have hcontinues := continues_foldl ⟨unit, some (bytes, unit)⟩ hr
  rw [← hrun] at hcontinues
  generalize (run (.decode bytes :: requests)).unit = later at hcontinues
  dsimp only at hcontinues
  -- what is raw now was raw then, and could be disassembled with fewer tables
  have hraw {handle : MethodHandle} {code : Bytes} {handlers : List (Handler CodePosition)}
      (hc : later.code? handle = some (.raw code handlers)) :=
    CodeUnit.exists_disassemble_of_decode h (hcontinues.raw handle code handlers hc)
  constructor
  · refine Edit.exists_disassemble fun handle code hc => ?_
    cases code with
    | symbolic instructions handlers => exact ⟨0, _, 0, rfl⟩
    | raw code handlers =>
      obtain ⟨n, converted, m, hd⟩ := hraw hc
      exact ⟨n, converted, m, Code.disassemble_extends hcontinues.tables hd⟩
  · intro handle code handlers hc
    have hfirst := hcontinues.raw handle code handlers hc
    obtain ⟨n, converted, m, hd⟩ := hraw hc
    obtain ⟨code₁, m₁, hd₁, h₁⟩ := Code.disassemble_at hd unit.nextInstruction
    obtain ⟨code₂, m₂, hd₂, h₂⟩ := Code.disassemble_at
      (Code.disassemble_extends hcontinues.tables hd) later.nextInstruction
    obtain ⟨first, hf, hfcode⟩ := Edit.disassembleMethod_of_ok hfirst hd₁
    obtain ⟨last, hl, hlcode⟩ := Edit.disassembleMethod_of_ok hc hd₂
    obtain ⟨instructions, placed, rfl, -⟩ := Code.disassemble_spec hd₁
    obtain ⟨instructions', placed', rfl, -⟩ := Code.disassemble_spec hd₂
    exact ⟨hfirst, first, last, instructions, placed, instructions', placed', hf, hl, hfcode,
      hlcode, h₂.trans h₁.symm⟩

/-! Two methods push the same string.  One of them is listed, while the other stays raw: its name
is changed, and an edit of its instructions is refused. -/

/-- The code of the first method, a loop around a protected range. -/
def guardedLoop : Code :=
  .ofWire [0x2C, 1, 0x29, 0x10, 0xF9, 0xFF, 0xFF, 0x47] [⟨0, 3, 7, .any, .any⟩]

def sharingBytes : Bytes :=
  [16, 0, 46, 0] ++ [0, 0, 0, 2, 1, 97, 0, 0, 0] ++ [2, 0, 0, 0, 0, 0, 0, 0, 0] ++ [0, 0, 0] ++
    [2, 0, 1, 1, 0, 0, 8, 0x2C, 1, 0x29, 0x10, 0xF9, 0xFF, 0xFF, 0x47, 1, 0, 3, 7, 0, 0, 0] ++
    [1, 1, 1, 0, 0, 4, 0x2C, 1, 0x29, 0x47, 0, 0]

def sharingRequests : List Request :=
  [.apply (.createInstruction .pushString [.string "b"]), .apply (.createMethod {}), .listing ⟨1⟩,
    .apply (.editSignature ⟨0⟩ fun signature => { signature with name := some "loop" }),
    .apply (.editInstructions ⟨0⟩ (pure ())), .apply (.createScript ⟨9⟩ [])]

theorem Session.disassemble_sharingRequests : ∃ unit first later instructions placed,
    CodeUnit.decode sharingBytes = .ok unit ∧
    (run (.decode sharingBytes :: sharingRequests)).unit.code? ⟨0⟩ = some guardedLoop ∧
    Edit.disassembleMethod ⟨0⟩ unit = .ok () first ∧
    Edit.disassembleMethod ⟨0⟩ (run (.decode sharingBytes :: sharingRequests)).unit =
      .ok () later ∧
    later.code? ⟨0⟩ = some (.symbolic instructions placed) ∧
    (first.code? ⟨0⟩).map Code.byPosition =
      some (Code.symbolic instructions placed).byPosition := by
  have hok : (CodeUnit.decode sharingBytes).isOk = true := by decide +kernel
  have hraw : (run (.decode sharingBytes :: sharingRequests)).unit.code? ⟨0⟩ =
      some guardedLoop := by decide +kernel
  have hedits : ∀ request ∈ sharingRequests, request.isEdit = true := by
    simp [sharingRequests, Request.isEdit]
  cases hunit : CodeUnit.decode sharingBytes with
  | error fault =>
    rw [hunit] at hok
    cases hok
  | ok unit =>
    obtain ⟨-, first, later, _, _, instructions, placed, hf, hl, hfirst, hlater, he⟩ :=
      (disassemble_later hunit hedits).2 ⟨0⟩ _ _ hraw
    refine ⟨unit, first, later, instructions, placed, rfl, hraw, hf, hl, hlater, ?_⟩
    rw [hfirst, he]
    rfl

end ActionBytecode
