/-
  ActionBytecode — the code of a unit in symbolic form.

  A unit is disassembled method by method, each in place.  The tables of the unit stay the same
  meanwhile, so the outcome is that of disassembling the list of its methods
  (`disassemble_eq_ok`), also when a method fails (`disassemble_eq_error`).  What a method declares
  apart from its code stays (`Method.declared_of_disassemble`), and a unit in which all code is
  symbolic is left as it is (`disassemble_of_plain`).
-/
import ActionBytecode.CodeUnit.Editing
import ActionBytecode.Proofs.Outcome

namespace ActionBytecode

/-! ## What stays when code is disassembled -/

/-- What a handler catches, and the variable that it is bound to. -/
def Handler.caught {π : Type} (handler : Handler π) : Multiname × Multiname :=
  (handler.catchType, handler.variableName)

/-- What the exception handlers of code catch. -/
def Code.caught (code : Code) : List (Multiname × Multiname) := code.handlers.map Handler.caught

/-- What a method declares apart from its code: its signature and, if it has a body, the frame of it
    and what is caught there. -/
def Method.declared (method : Method) : Signature × Option (Frame × List (Multiname × Multiname)) :=
  (method.toSignature, method.body.map fun body => (body.toFrame, body.code.caught))

theorem Handler.caught_of_mapM {π ρ : Type} {f : π → Except Fault ρ} {handler : Handler π}
    {placed : Handler ρ} (h : handler.mapM f = .ok placed) : placed.caught = handler.caught := by
  obtain ⟨start, -, h⟩ := bind_eq_ok.1 h
  obtain ⟨stop, -, h⟩ := bind_eq_ok.1 h
  obtain ⟨entry, -, h⟩ := bind_eq_ok.1 h
  rw [← pure_eq_ok.1 h]
  rfl

theorem Handler.map_caught_of_mapM {π ρ : Type} {f : π → Except Fault ρ}
    {handlers : List (Handler π)} {placed : List (Handler ρ)}
    (h : List.Forall₂ (fun handler placed => Handler.mapM f handler = .ok placed) handlers placed) :
    placed.map caught = handlers.map caught :=
  (map_eq_map_iff.2 (h.imp fun _ _ h => (caught_of_mapM h).symm)).symm

theorem Code.caught_ofWire (bytes : Bytes) (handlers : List (Handler UInt32)) :
    (ofWire bytes handlers).caught = handlers.map Handler.caught :=
  List.map_map

/-- How raw code is disassembled. -/
theorem Code.of_disassemble {tables : Tables} {bytes : Bytes}
    {handlers : List (Handler CodePosition)} {converted : Code} {n m : Nat}
    (h : disassemble tables (raw bytes handlers) n = .ok converted m) :
    ∃ found instructions placed, scan tables bytes.length (.start bytes) n = .ok found m ∧
      List.Forall₂ (fun placed instruction => resolveInstruction found placed = .ok instruction)
        found instructions ∧
      List.Forall₂ (fun handler placed =>
        Handler.mapM (resolvePosition found bytes.length) handler = .ok placed) handlers placed ∧
      symbolic instructions placed = converted := by
  obtain ⟨found, k, hs, h⟩ := run_bind_eq_ok.1 h
  generalize hr : (found.mapM (resolveInstruction found) >>= fun instructions =>
    handlers.mapM (·.mapM (resolvePosition found bytes.length)) >>= fun handlers =>
    pure (symbolic instructions handlers)) = resolved at h
  cases resolved with
  | error fault => cases h
  | ok code =>
    cases h
    obtain ⟨instructions, hi, hr⟩ := bind_eq_ok.1 hr
    obtain ⟨placed, hp, hr⟩ := bind_eq_ok.1 hr
    exact ⟨found, instructions, placed, hs, mapM_eq_ok.1 hi, mapM_eq_ok.1 hp, pure_eq_ok.1 hr⟩

theorem Code.caught_of_disassemble {tables : Tables} {code converted : Code} {n m : Nat}
    (h : code.disassemble tables n = .ok converted m) : converted.caught = code.caught := by
  cases code with
  | symbolic instructions handlers =>
    cases h
    rfl
  | raw bytes handlers =>
    obtain ⟨found, instructions, placed, -, -, hp, rfl⟩ := of_disassemble h
    exact Handler.map_caught_of_mapM hp

/-- **Only the code of a method changes when it is disassembled.** -/
theorem Method.declared_of_disassemble {tables : Tables} {method converted : Method} {n m : Nat}
    (h : method.disassemble tables n = .ok converted m) : converted.declared = method.declared := by
  obtain ⟨signature, body⟩ := method
  cases body with
  | none =>
    cases h
    rfl
  | some body =>
    obtain ⟨code, _, hc, h⟩ := run_bind_eq_ok.1 h
    cases h
    simp only [declared, Option.map_some, Code.caught_of_disassemble hc]

theorem Method.frame_of_disassemble {tables : Tables} {method converted : Method} {n m : Nat}
    (h : method.disassemble tables n = .ok converted m) :
    converted.body.map Body.toFrame = method.body.map Body.toFrame := by
  have hbody := congrArg (fun declared => declared.2.map Prod.fst) (declared_of_disassemble h)
  simp only [declared, Option.map_map] at hbody
  exact hbody

theorem Code.isSymbolic_of_disassemble {tables : Tables} {code converted : Code} {n m : Nat}
    (h : code.disassemble tables n = .ok converted m) : converted.isSymbolic = true := by
  cases code with
  | symbolic instructions handlers =>
    cases h
    rfl
  | raw bytes handlers =>
    obtain ⟨found, instructions, placed, -, -, -, rfl⟩ := of_disassemble h
    rfl

/-- A method that is disassembled is symbolic, unless it stays as it was. -/
theorem Method.isSymbolic_of_disassemble {tables : Tables} {method converted : Method} {n m : Nat}
    (h : method.disassemble tables n = .ok converted m) :
    converted = method ∨ converted.isSymbolic = true := by
  obtain ⟨signature, body⟩ := method
  cases body with
  | none =>
    cases h
    exact .inl rfl
  | some body =>
    obtain ⟨code, _, hc, h⟩ := run_bind_eq_ok.1 h
    cases h
    exact .inr (Code.isSymbolic_of_disassemble hc)

namespace Edit

/-- A method of the unit is converted in place. -/
theorem convert_of_some {unit : CodeUnit} {handle : MethodHandle} {method : Method}
    (hm : unit.method? handle = some method) :
    convert handle unit =
      match method.disassemble unit.tables unit.nextInstruction with
      | .ok converted next =>
        .ok method.isRaw { unit with
          methods := unit.methods.setIfInBounds handle.index converted
          nextInstruction := next }
      | .error fault next => .error fault { unit with nextInstruction := next } := by
  have hrequire : requireMethod handle unit = .ok method unit := by
    rw [requireMethod, run_get_bind, hm]
    rfl
  rw [convert, run_bind_of_ok hrequire, run_get_bind]
  cases method.disassemble unit.tables unit.nextInstruction <;> rfl

theorem convert_of_none {unit : CodeUnit} {handle : MethodHandle}
    (hm : unit.method? handle = none) :
    convert handle unit = .error (.misuse (.unknownMethod handle)) unit := by
  rw [convert, requireMethod, bind_assoc, run_get_bind, hm]
  rfl

/-- The unit with other methods and another counter of identities. -/
def holding (unit : CodeUnit) (methods : List Method) (next : Nat) : CodeUnit :=
  { unit with methods := methods.toArray, nextInstruction := next }

theorem convert_holding {unit : CodeUnit} {earlier later : List Method} {method : Method}
    {n : Nat} :
    convert ⟨earlier.length⟩ (holding unit (earlier ++ method :: later) n) =
      match method.disassemble unit.tables n with
      | .ok converted next =>
        .ok method.isRaw (holding unit (earlier ++ converted :: later) next)
      | .error fault next => .error fault (holding unit (earlier ++ method :: later) next) := by
  have hmethod : (holding unit (earlier ++ method :: later) n).method? ⟨earlier.length⟩ =
      some method := by
    simp [CodeUnit.method?, holding]
  rw [convert_of_some hmethod]
  have htables : (holding unit (earlier ++ method :: later) n).tables = unit.tables := rfl
  have hnext : (holding unit (earlier ++ method :: later) n).nextInstruction = n := rfl
  rw [htables, hnext]
  cases method.disassemble unit.tables n with
  | error fault next => rfl
  | ok converted next =>
    have hset : (earlier ++ method :: later).toArray.setIfInBounds earlier.length converted =
        (earlier ++ converted :: later).toArray := by
      simp
    show EStateM.Result.ok method.isRaw { holding unit _ n with
      methods := (earlier ++ method :: later).toArray.setIfInBounds earlier.length converted
      nextInstruction := next } = _
    rw [hset]
    rfl

/-- Methods converted in place are the methods disassembled one after another. -/
theorem mapM_convert {unit : CodeUnit} (methods : List Method) :
    ∀ (earlier : List Method) (n : Nat) (flags : List Bool) (later : CodeUnit),
      ((List.range' earlier.length methods.length).map MethodHandle.mk).mapM convert
        (holding unit (earlier ++ methods) n) = .ok flags later ↔
      ∃ converted next, methods.mapM (Method.disassemble unit.tables) n = .ok converted next ∧
        methods.map Method.isRaw = flags ∧ holding unit (earlier ++ converted) next = later := by
  induction methods with
  | nil => intro earlier n flags later; simp
  | cons method methods ih =>
    intro earlier n flags later
    rw [List.length_cons, List.range'_succ, List.map_cons, List.mapM_cons, List.mapM_cons]
    simp only [run_bind_eq_ok, run_pure_eq, EStateM.Result.ok.injEq]
    rw [convert_holding]
    cases hm : method.disassemble unit.tables n with
    | error fault next => simp
    | ok first next =>
      have ih' := ih (earlier ++ [first]) next
      simp only [List.length_append, List.length_singleton, List.append_assoc,
        List.singleton_append] at ih'
      simp only [EStateM.Result.ok.injEq]
      constructor
      · rintro ⟨_, _, ⟨rfl, rfl⟩, rest, last, hrest, rfl, rfl⟩
        obtain ⟨converted, final, hc, rfl, rfl⟩ := (ih' rest last).1 hrest
        exact ⟨first :: converted, final, ⟨first, next, ⟨rfl, rfl⟩, converted, final, hc, rfl, rfl⟩,
          rfl, rfl⟩
      · rintro ⟨_, final, ⟨_, _, ⟨rfl, rfl⟩, converted, _, hc, rfl, rfl⟩, rfl, rfl⟩
        exact ⟨_, _, ⟨rfl, rfl⟩, _, _, (ih' _ _).2 ⟨converted, _, hc, rfl, rfl⟩, rfl, rfl⟩

/-- **A unit is disassembled by disassembling its methods.** -/
theorem disassemble_eq_ok {unit later : CodeUnit} : disassemble unit = .ok () later ↔
    ∃ methods next, unit.methods.toList.mapM (Method.disassemble unit.tables)
        unit.nextInstruction = .ok methods next ∧
      { unit with
        methods := methods.toArray
        nextInstruction := next
        written := if unit.methods.toList.any Method.isRaw then none else unit.written } =
        later := by
  have hstart : holding unit ([] ++ unit.methods.toList) unit.nextInstruction = unit := rfl
  have hconvert := @mapM_convert unit unit.methods.toList [] unit.nextInstruction
  rw [hstart, List.length_nil, Array.length_toList, ← List.range_eq_range'] at hconvert
  have hflags : (unit.methods.toList.map Method.isRaw).any id =
      unit.methods.toList.any Method.isRaw := by
    rw [List.any_map]
    rfl
  rw [disassemble, run_get_bind, run_bind_eq_ok]
  constructor
  · rintro ⟨flags, plain, hc, h⟩
    obtain ⟨methods, next, hm, rfl, rfl⟩ := (hconvert flags plain).1 hc
    rw [hflags] at h
    refine ⟨methods, next, hm, ?_⟩
    split at h <;> cases h <;> simp_all [holding]
  · rintro ⟨methods, next, hm, rfl⟩
    refine ⟨_, _, (hconvert _ _).2 ⟨methods, next, hm, rfl, rfl⟩, ?_⟩
    rw [hflags]
    split <;> rfl

/-- Methods converted in place up to the first that cannot be disassembled.  Those before it stay
    converted, and so do the identities that were handed out. -/
theorem mapM_convert_eq_error {unit : CodeUnit} (methods : List Method) :
    ∀ (earlier : List Method) (n : Nat) (fault : Fault) (later : CodeUnit),
      ((List.range' earlier.length methods.length).map MethodHandle.mk).mapM convert
        (holding unit (earlier ++ methods) n) = .error fault later ↔
      ∃ before failed after converted m next, methods = before ++ failed :: after ∧
        before.mapM (Method.disassemble unit.tables) n = .ok converted m ∧
        failed.disassemble unit.tables m = .error fault next ∧
        holding unit (earlier ++ (converted ++ failed :: after)) next = later := by
  induction methods with
  | nil => intro earlier n fault later; simp
  | cons method methods ih =>
    intro earlier n fault later
    rw [List.length_cons, List.range'_succ, List.map_cons, List.mapM_cons]
    simp only [run_bind_eq_error, run_pure_eq, reduceCtorEq, and_false, exists_false, or_false]
    rw [convert_holding]
    cases hm : method.disassemble unit.tables n with
    | error cause next =>
      simp only [EStateM.Result.error.injEq, reduceCtorEq, false_and, exists_false, or_false]
      constructor
      · rintro ⟨rfl, rfl⟩
        exact ⟨[], method, methods, [], n, next, rfl, rfl, hm, rfl⟩
      · rintro ⟨before, failed, after, converted, m, next', hs, hc, hf, rfl⟩
        cases before with
        | nil =>
          obtain ⟨rfl, rfl⟩ := List.cons.inj hs
          cases hc
          cases hm.symm.trans hf
          exact ⟨rfl, rfl⟩
        | cons first before =>
          obtain ⟨rfl, -⟩ := List.cons.inj hs
          rw [List.mapM_cons, run_bind_of_error hm] at hc
          cases hc
    | ok first next =>
      have ih' := ih (earlier ++ [first]) next fault later
      simp only [List.length_append, List.length_singleton, List.append_assoc,
        List.singleton_append] at ih'
      simp only [EStateM.Result.ok.injEq, reduceCtorEq, false_or]
      constructor
      · rintro ⟨_, _, ⟨rfl, rfl⟩, hrest⟩
        obtain ⟨before, failed, after, converted, m, next', rfl, hc, hf, rfl⟩ := ih'.1 hrest
        refine ⟨method :: before, failed, after, first :: converted, m, next', rfl, ?_, hf, rfl⟩
        rw [List.mapM_cons, run_bind_of_ok hm, run_bind_of_ok hc, run_pure_eq]
      · rintro ⟨before, failed, after, converted, m, next', hs, hc, hf, rfl⟩
        refine ⟨_, _, ⟨rfl, rfl⟩, ih'.2 ?_⟩
        cases before with
        | nil =>
          obtain ⟨rfl, rfl⟩ := List.cons.inj hs
          cases hc
          cases hm.symm.trans hf
        | cons second before =>
          obtain ⟨rfl, rfl⟩ := List.cons.inj hs
          rw [List.mapM_cons, run_bind_of_ok hm] at hc
          obtain ⟨rest, _, hrest, hc⟩ := run_bind_eq_ok.1 hc
          cases hc
          exact ⟨before, failed, after, rest, m, next', rfl, hrest, hf, rfl⟩

/-- **A unit cannot be disassembled if one of its methods cannot.**  The methods before that one
    are disassembled all the same. -/
theorem disassemble_eq_error {unit later : CodeUnit} {fault : Fault} :
    disassemble unit = .error fault later ↔
      ∃ before failed after converted m next,
        unit.methods.toList = before ++ failed :: after ∧
        before.mapM (Method.disassemble unit.tables) unit.nextInstruction = .ok converted m ∧
        failed.disassemble unit.tables m = .error fault next ∧
        holding unit (converted ++ failed :: after) next = later := by
  have hstart : holding unit ([] ++ unit.methods.toList) unit.nextInstruction = unit := rfl
  have hconvert := @mapM_convert_eq_error unit unit.methods.toList [] unit.nextInstruction
  rw [hstart, List.length_nil, Array.length_toList, ← List.range_eq_range'] at hconvert
  simp only [List.nil_append] at hconvert
  rw [disassemble, run_get_bind, run_bind_eq_error, hconvert]
  -- nothing fails once the methods are converted
  have hforget (flags : List Bool) (plain : CodeUnit) :
      (if flags.any id then forget else pure ()) plain ≠ .error fault later := by
    split <;> exact fun h => by cases h
  exact ⟨fun h => h.resolve_right fun ⟨flags, plain, _, h⟩ => hforget flags plain h, Or.inl⟩

end Edit

/-! ## Units in symbolic form -/

/-- The instructions of a method with symbolic code. -/
def Method.instructions (method : Method) : List Instruction :=
  match method.body with
  | some ⟨_, .symbolic instructions _⟩ => instructions
  | _ => []

/-- The operands in the symbolic code of the unit. -/
def CodeUnit.operands (unit : CodeUnit) : List Operand :=
  unit.methods.toList.flatMap fun method => method.instructions.flatMap Instruction.operands

/-- All code of the unit is symbolic. -/
def CodeUnit.Plain (unit : CodeUnit) : Prop := ∀ method ∈ unit.methods, method.isRaw = false

instance (unit : CodeUnit) : Decidable unit.Plain :=
  inferInstanceAs (Decidable (∀ method ∈ unit.methods, method.isRaw = false))

theorem Method.disassemble_of_plain {method : Method} (h : method.isRaw = false) (tables : Tables)
    (n : Nat) : method.disassemble tables n = .ok method n := by
  obtain ⟨signature, body⟩ := method
  cases body with
  | none => rfl
  | some body =>
    obtain ⟨frame, code⟩ := body
    cases code with
    | raw bytes handlers => cases h
    | symbolic instructions handlers => rfl

theorem Method.mapM_disassemble_of_plain {methods : List Method}
    (h : ∀ method ∈ methods, method.isRaw = false) (tables : Tables) (n : Nat) :
    methods.mapM (Method.disassemble tables) n = .ok methods n :=
  run_mapM_of_forall₂ (List.forall₂_same.2 fun method hmem =>
    disassemble_of_plain (h method hmem) tables n)

/-- **A unit in symbolic form is left as it is.** -/
theorem Edit.disassemble_of_plain {unit : CodeUnit} (h : unit.Plain) :
    disassemble unit = .ok () unit := by
  have hplain : ∀ method ∈ unit.methods.toList, method.isRaw = false :=
    fun method hmem => h method (Array.mem_toList_iff.1 hmem)
  have hraw : unit.methods.toList.any Method.isRaw = false := by
    rw [List.any_eq_false]
    exact fun method hmem => by rw [hplain method hmem]; decide
  refine disassemble_eq_ok.2 ⟨_, _, Method.mapM_disassemble_of_plain hplain _ _, ?_⟩
  rw [hraw]
  rfl

theorem Method.isRaw_of_disassemble {tables : Tables} {method converted : Method} {n m : Nat}
    (h : method.disassemble tables n = .ok converted m) : converted.isRaw = false := by
  obtain ⟨signature, body⟩ := method
  cases body with
  | none =>
    cases h
    rfl
  | some body =>
    obtain ⟨code, _, hc, h⟩ := run_bind_eq_ok.1 h
    cases h
    exact congrArg Bool.not (Code.isSymbolic_of_disassemble hc)

theorem Method.plain_of_mapM_disassemble {tables : Tables} {methods converted : List Method}
    {n m : Nat} (h : methods.mapM (Method.disassemble tables) n = .ok converted m) :
    ∀ method ∈ converted, method.isRaw = false := by
  have hall : List.Forall₂ (fun _ converted => Method.isRaw converted = false) methods converted :=
    forall₂_of_run_mapM h fun _ _ _ _ _ hd => isRaw_of_disassemble hd
  intro method hmem
  obtain ⟨_, -, hraw⟩ := exists_mem_left hall hmem
  exact hraw

/-- A unit that is disassembled is in symbolic form. -/
theorem Edit.plain_of_disassemble {unit later : CodeUnit} (h : disassemble unit = .ok () later) :
    later.Plain := by
  obtain ⟨methods, next, hm, rfl⟩ := disassemble_eq_ok.1 h
  intro method hmem
  exact Method.plain_of_mapM_disassemble hm method (List.mem_toArray.1 hmem)

theorem Edit.markTampered_eq_ok {unit marked : CodeUnit} :
    markTampered unit = .ok () marked ↔
      ∃ plain, disassemble unit = .ok () plain ∧ { plain with written := none } = marked := by
  rw [markTampered, run_bind_eq_ok]
  constructor
  · rintro ⟨_, plain, hd, h⟩
    cases h
    exact ⟨plain, hd, rfl⟩
  · rintro ⟨plain, hd, rfl⟩
    exact ⟨(), plain, hd, rfl⟩

end ActionBytecode
