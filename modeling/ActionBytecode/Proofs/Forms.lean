/-
  ActionBytecode — the form of code and of its handlers.

  Code and its exception handlers are two fields, each with two forms.  They are raw together or
  symbolic together: raw code has its handlers from the wire, where places are offsets, and no edit
  reaches them (`CodeUnit.Uniform`, `ReachableBy.uniform`).  Bringing code into symbolic form
  replaces all of them (`Method.Converted`).  That can fail, for one method or midway through a
  unit.  Each method is then as it was, or converted altogether (`Edit.stays_of_disassemble`), and
  the bytes of the code are to blame (`Method.kind_of_disassemble_error`), never a place that is not
  an offset.

  The handlers of symbolic code can be edited freely, so an offset can be put among them.  Such code
  is never written (`CodeUnit.Rebuilds.isOffset_eq_false`), and it stays for another edit.
-/
import ActionBytecode.Proofs.Diagnosis
import ActionBytecode.Proofs.Encodability
import ActionBytecode.Proofs.Failure
import ActionBytecode.Proofs.Recovery

namespace ActionBytecode

/-! ## Methods -/

/-- The later method is the earlier one with its raw code in symbolic form, and its handlers with
    it: as many as before, and no place of them is an offset. -/
inductive Method.Converted (tables : Tables) (method : Method) : Method → Prop
  | intro {body : Body} {bytes : Bytes} {handlers : List (Handler CodePosition)}
    {instructions : List Instruction} {placed : List (Handler CodePosition)} {n m : Nat}
    (hbody : method.body = some body) (hraw : body.code = .raw bytes handlers)
    (hcode : body.code.disassemble tables n = .ok (.symbolic instructions placed) m)
    (hlength : placed.length = handlers.length)
    (hplaces : ∀ handler ∈ placed, ∀ place ∈ handler.places, place.isOffset = false) :
    Converted tables method
      { method with body := some { body with code := .symbolic instructions placed } }

namespace Method

variable {tables : Tables} {method later : Method} {n m : Nat}

theorem isSymbolic_of_code? {code : Code} (h : method.code? = some code) :
    method.isSymbolic = code.isSymbolic := by
  obtain ⟨body, hb, rfl⟩ := Option.map_eq_some_iff.1 h
  rw [isSymbolic, hb]

theorem isRaw_of_code? {code : Code} (h : method.code? = some code) :
    method.isRaw = !code.isSymbolic := by
  obtain ⟨body, hb, rfl⟩ := Option.map_eq_some_iff.1 h
  rw [isRaw, hb]

theorem Converted.isRaw_eq_true (h : Converted tables method later) : method.isRaw = true := by
  cases h with
  | intro hbody hraw _ _ _ =>
    exact isRaw_of_code? (Option.map_eq_some_iff.2 ⟨_, hbody, hraw⟩)

/-- **A method that is disassembled stays as it is, or is converted altogether.** -/
theorem stays_of_disassemble (h : method.disassemble tables n = .ok later m) :
    later = method ∨ Converted tables method later := by
  obtain ⟨signature, body⟩ := method
  cases body with
  | none =>
    cases h
    exact .inl rfl
  | some body =>
    obtain ⟨frame, code⟩ := body
    obtain ⟨converted, _, hc, h⟩ := run_bind_eq_ok.1 h
    cases h
    cases code with
    | symbolic instructions handlers =>
      cases hc
      exact .inl rfl
    | raw bytes handlers =>
      obtain ⟨instructions, placed, rfl, hfound, hlength, -⟩ := Code.disassemble_spec hc
      refine .inr (.intro rfl rfl hc hlength fun handler hh place hp => ?_)
      have hwithin := hfound.assemblable.places handler hh place hp
      cases place with
      | offset => exact absurd hwithin id
      | instruction | finish => rfl

/-- **Only the bytes of the code are to blame when a method cannot be disassembled.** -/
theorem kind_of_disassemble_error (hu : ∀ body, method.body = some body → body.code.Uniform)
    {fault : Fault} (h : method.disassemble tables n = .error fault m) :
    fault.kind ≠ .construction := by
  obtain ⟨signature, body⟩ := method
  cases body with
  | none => cases h
  | some body =>
    rcases run_bind_eq_error.1 h with hc | ⟨code, _, -, h⟩
    · intro hkind
      rcases Code.kind_of_disassemble_error (hu body rfl) hc with
        hparse | ⟨_, _, -, _, _, _, -, -, -, rfl⟩
      · cases hparse.symm.trans hkind
      · cases hkind
    · cases h

end Method

/-! ## Units -/

/-- All raw code of the unit gives the places of its handlers as offsets. -/
def CodeUnit.Uniform (unit : CodeUnit) : Prop :=
  ∀ handle code, unit.code? handle = some code → code.Uniform

namespace CodeUnit

variable {unit later : CodeUnit}

theorem Uniform.body (h : unit.Uniform) {method : Method} (hm : method ∈ unit.methods) {body : Body}
    (hb : method.body = some body) : body.code.Uniform := by
  obtain ⟨handle, hm⟩ := mem_methods_iff.1 hm
  exact h handle _
    (Option.bind_eq_some_iff.2 ⟨method, hm, Option.map_eq_some_iff.2 ⟨body, hb, rfl⟩⟩)

/-- No edit puts anything into raw code. -/
theorem Uniform.of_rawFrom (h : unit.Uniform) (hr : RawFrom unit later) : later.Uniform := by
  intro handle code hc hraw
  cases code with
  | symbolic instructions handlers => cases hraw
  | raw bytes handlers => exact h handle _ (hr handle bytes handlers hc) rfl

/-- The code that takes the place of what was written has the handlers that were written. -/
theorem Uniform.commit (h : unit.Uniform) {options : EncodeOptions} {rebuilt : Rebuilt}
    (hr : unit.rebuild options = .ok rebuilt) : (unit.commit rebuilt).Uniform := by
  intro handle code hc
  obtain ⟨method, hm, hcode⟩ := Option.bind_eq_some_iff.1 hc
  by_cases hw : ∃ written ∈ rebuilt.bodies, written.method = handle
  · obtain ⟨written, hw, rfl⟩ := hw
    rw [commit_of_assembled hr hw] at hm
    obtain ⟨earlier, -, rfl⟩ := Option.map_eq_some_iff.1 hm
    obtain ⟨body, hb, rfl⟩ := Option.map_eq_some_iff.1 hcode
    obtain ⟨old, -, rfl⟩ := Option.map_eq_some_iff.1 hb
    exact Code.uniform_ofWire written.code written.handlers
  · rw [commit_of_not_assembled fun written hmem he => hw ⟨written, hmem, he⟩] at hm
    exact h handle code (Option.bind_eq_some_iff.2 ⟨method, hm, hcode⟩)

theorem Uniform.run (h : unit.Uniform) (operation : Operation) :
    (operation.run unit).Uniform := by
  rcases operation.run_cases unit with hk | hj | hj | ⟨options, plain, rebuilt, rfl, hk, hr, he⟩
  · exact h.of_rawFrom hk.raw
  · exact h.of_rawFrom hj.raw
  · exact h.of_rawFrom hj.raw
  · have hrun : (Operation.encode options).run unit = plain.commit rebuilt := Edit.after_of_ok he
    rw [hrun]
    exact (h.of_rawFrom hk.raw).commit hr

theorem uniform_of_decode {bytes : Bytes} (h : decode bytes = .ok unit) : unit.Uniform := by
  obtain ⟨parsed, cursor, methods, hp, hexamined, rfl⟩ := examined_of_decode h
  intro handle code hc
  obtain ⟨method, hm, hcode⟩ := Option.bind_eq_some_iff.1 hc
  obtain ⟨body, hb, rfl⟩ := Option.map_eq_some_iff.1 hcode
  -- a method that was examined has the body that was read
  obtain ⟨original, ho, he⟩ :=
    exists_mem_left hexamined (List.mem_toArray.1 (Array.mem_of_getElem? hm))
  obtain ⟨⟨file, rfl⟩, -⟩ := he.exists_disassemble
  have hresolved := (Reader.resolved_of_unit hp).1.methods original (Array.mem_toList_iff.1 ho)
  exact hresolved.uniform body hb

end CodeUnit

/-- **Code and handlers are raw together in every unit that can be reached.** -/
theorem ReachableBy.uniform {allowed : CodeUnit → Operation → Prop} {unit : CodeUnit}
    (h : ReachableBy allowed unit) : unit.Uniform := by
  induction h with
  | empty => rintro handle code ⟨⟩
  | decode h => exact CodeUnit.uniform_of_decode h
  | step _ _ ih => exact ih.run _

namespace Edit

variable {unit later : CodeUnit} {fault : Fault}

/-- A method that cannot be disassembled is left as it is, and so is the rest of the unit. -/
theorem disassembleMethod_eq_error (hu : unit.Uniform) {handle : MethodHandle}
    (h : disassembleMethod handle unit = .error fault later) :
    later = { unit with nextInstruction := later.nextInstruction } ∧
      ((unit.method? handle).isSome → fault.kind ≠ .construction) := by
  have hforget (raw : Bool) (converted : CodeUnit) :
      (if raw then forget else pure ()) converted ≠ .error fault later := by
    cases raw <;> exact fun h => by cases h
  rcases run_bind_eq_error.1 h with h | ⟨raw, converted, -, h⟩
  · cases hm : unit.method? handle with
    | none =>
      rw [convert_of_none hm] at h
      cases h
      exact ⟨rfl, fun hm => by cases hm⟩
    | some method =>
      rw [convert_of_some hm] at h
      cases hd : method.disassemble unit.tables unit.nextInstruction with
      | ok converted next =>
        rw [hd] at h
        cases h
      | error cause next =>
        rw [hd] at h
        cases h
        exact ⟨rfl, fun _ => Method.kind_of_disassemble_error
          (fun _ => hu.body (CodeUnit.mem_methods_iff.2 ⟨handle, hm⟩)) hd⟩
  · exact absurd h (hforget raw converted)

/-- **Each method of a unit stays as it is or is converted altogether**, also when another one
    cannot be disassembled. -/
theorem stays_of_disassemble (unit : CodeUnit) : List.Forall₂
    (fun method left => left = method ∨ Method.Converted unit.tables method left)
    unit.methods.toList (disassemble.after unit).methods.toList := by
  cases hd : disassemble unit with
  | ok _ later =>
    rw [after_of_ok hd]
    obtain ⟨methods, next, hm, rfl⟩ := disassemble_eq_ok.1 hd
    exact forall₂_of_run_mapM hm fun _ _ _ _ _ => Method.stays_of_disassemble
  | error fault later =>
    rw [after_of_error hd]
    obtain ⟨before, failed, after, converted, m, next, hs, hc, -, rfl⟩ :=
      disassemble_eq_error.1 hd
    rw [hs]
    exact List.rel_append (forall₂_of_run_mapM hc fun _ _ _ _ _ => Method.stays_of_disassemble)
      (List.forall₂_same.2 fun method _ => .inl rfl)

theorem disassemble_error (hu : unit.Uniform) (h : disassemble unit = .error fault later) :
    fault.kind ≠ .construction ∧
      later = { unit with methods := later.methods, nextInstruction := later.nextInstruction } := by
  obtain ⟨before, failed, after, converted, m, next, hs, -, hf, rfl⟩ := disassemble_eq_error.1 h
  have hfailed : failed ∈ unit.methods := Array.mem_toList_iff.1 (by simp [hs])
  exact ⟨Method.kind_of_disassemble_error (fun _ => hu.body hfailed) hf, rfl⟩

/-- Symbolic code stays when the unit is disassembled. -/
theorem method?_after_disassemble {handle : MethodHandle} {method : Method}
    (hm : unit.method? handle = some method) (hplain : method.isRaw = false) :
    (disassemble.after unit).method? handle = some method := by
  obtain ⟨left, hleft, hstays⟩ := exists_getElem? (stays_of_disassemble unit)
    (Array.getElem?_toList.trans hm)
  rcases hstays with rfl | hconverted
  · exact Array.getElem?_toList.symm.trans hleft
  · cases hplain.symm.trans hconverted.isRaw_eq_true

end Edit

/-- **No offset is written.**  The handlers of a unit that is built name instructions, or the end
    of the code. -/
theorem CodeUnit.Rebuilds.isOffset_eq_false {unit : CodeUnit} {options : EncodeOptions}
    {order : List ClassHandle} {s : Sections} {rebuilt : Rebuilt}
    (hr : unit.Rebuilds options order s rebuilt) (ho : unit.Ordered) {handle : MethodHandle}
    {code : Code} (hc : unit.code? handle = some code) {handler : Handler CodePosition}
    (hh : handler ∈ code.handlers) {place : CodePosition} (hp : place ∈ handler.places) :
    place.isOffset = false := by
  obtain ⟨method, hm, hc⟩ := Option.bind_eq_some_iff.1 hc
  obtain ⟨body, hb, rfl⟩ := Option.map_eq_some_iff.1 hc
  have hindexed : (handle, method) ∈ unit.indexedMethods rebuilt.indexing :=
    mem_indexedMethods.2 ⟨(mem_methods_of_index ho hr.index_eq).2 (lt_size_of_method? hm), hm⟩
  obtain ⟨emissions, -, ⟨code, handlers⟩, ha⟩ :=
    succeeds_assembleBody.1 (exists_assembleBody hr hindexed) body hb
  obtain ⟨layout, pieces, -, -, -, hplaces⟩ := assemble_eq_ok.1 ha
  obtain ⟨placed, -, hplaced⟩ := exists_mem_left hplaces.flip hh
  obtain ⟨offset, -, hoffset⟩ := exists_mem_left (Handler.places_of_mapM hplaced).flip hp
  cases place with
  | offset => cases hoffset
  | instruction | finish => rfl

/-- **A unit with an offset in symbolic code cannot be written**, and the code stays as it is. -/
theorem Edit.encode_of_offset {unit : CodeUnit} (ho : unit.Ordered) {handle : MethodHandle}
    {code : Code} (hc : unit.code? handle = some code) (hsymbolic : code.isSymbolic = true)
    {handler : Handler CodePosition} (hh : handler ∈ code.handlers) {place : CodePosition}
    (hp : place ∈ handler.places) (hoffset : place.isOffset = true) (options : EncodeOptions) :
    ∃ fault later, encode options unit = .error fault later ∧
      later.method? handle = unit.method? handle := by
  obtain ⟨method, hm, hcode⟩ := Option.bind_eq_some_iff.1 hc
  have hplain : method.isRaw = false := by rw [Method.isRaw_of_code? hcode, hsymbolic]; rfl
  have hstays := method?_after_disassemble hm hplain
  have ht : unit.isTampered = true := by
    by_contra hf
    have hraw := (CodeUnit.isTampered_eq_false.1 (eq_false_of_ne_true hf)).2 method
      (CodeUnit.mem_methods_iff.2 ⟨handle, hm⟩)
    rw [Method.isSymbolic_of_code? hcode, hsymbolic] at hraw
    cases hraw
  cases he : encode options unit with
  | ok bytes later =>
    obtain ⟨plain, order, s, rebuilt, hd, hr, -, -⟩ := rebuilds_of_encode ht he
    rw [after_of_ok hd] at hstays
    have hfalse := hr.isOffset_eq_false (ho.kept (keeps_disassemble.of_ok hd))
      (Option.bind_eq_some_iff.2 ⟨method, hstays, hcode⟩) hh hp
    cases hoffset.symm.trans hfalse
  | error fault later =>
    refine ⟨fault, later, rfl, ?_⟩
    rcases (encode_eq_error.1 he).2 with hd | ⟨hd, -⟩
    · exact (after_of_error hd ▸ hstays).trans hm.symm
    · exact (after_of_ok hd ▸ hstays).trans hm.symm

/-- **Code and its handlers have one form.**  The handlers of raw code hold nothing but offsets, so
    neither a method nor a unit fails to be disassembled for want of one.  What fails leaves a
    method as it is or converted altogether.  An offset among symbolic handlers keeps the unit from
    being written. -/
theorem Reachable.forms_agree {unit : CodeUnit} (h : Reachable unit) :
    (∀ handle code, unit.code? handle = some code → code.isSymbolic = false →
      ∀ handler ∈ code.handlers, ∀ place ∈ handler.places, place.isOffset = true) ∧
    (∀ handle fault later, Edit.disassembleMethod handle unit = .error fault later →
      later = { unit with nextInstruction := later.nextInstruction } ∧
        ((unit.method? handle).isSome → fault.kind ≠ .construction)) ∧
    (∀ fault later, Edit.disassemble unit = .error fault later →
      fault.kind ≠ .construction ∧
        later = { unit with methods := later.methods, nextInstruction := later.nextInstruction } ∧
        List.Forall₂ (fun method left => left = method ∨ method.Converted unit.tables left)
          unit.methods.toList later.methods.toList) ∧
    ∀ handle code, unit.code? handle = some code → code.isSymbolic = true →
      ∀ handler ∈ code.handlers, ∀ place ∈ handler.places, place.isOffset = true →
        ∀ options, ∃ fault later, Edit.encode options unit = .error fault later ∧
          later.method? handle = unit.method? handle := by
  have hu : unit.Uniform := h.uniform
  refine ⟨hu, fun handle fault later hd => Edit.disassembleMethod_eq_error hu hd,
    fun fault later hd => ?_,
    fun handle code hc hs handler hh place hp hoffset options =>
      Edit.encode_of_offset h.ordered hc hs hh hp hoffset options⟩
  have hstays := Edit.stays_of_disassemble unit
  rw [Edit.after_of_error hd] at hstays
  exact ⟨(Edit.disassemble_error hu hd).1, (Edit.disassemble_error hu hd).2, hstays⟩

/-! An offset is put among the handlers of one method, while the code of another one is still raw
and cannot be disassembled. -/

/-- A handler that starts at an offset. -/
def strayHandler : Handler CodePosition := ⟨.offset 0, .finish, .finish, .any, .any⟩

/-- The unit of the two methods. -/
def strayUnit : CodeUnit :=
  [.disassemble, .editHandlers ⟨0⟩ (set [strayHandler])].foldl
    (fun unit (operation : Operation) => operation.run unit) staleUnit

/-- The second method cannot be disassembled, and because of the first the unit cannot be
    written. -/
theorem Reachable.forms_agree_strayUnit : Reachable strayUnit ∧
    strayUnit.methods.map Method.isSymbolic = #[true, false] ∧
    (∃ fault later, Edit.disassembleMethod ⟨1⟩ strayUnit = .error fault later ∧
      later = { strayUnit with nextInstruction := later.nextInstruction } ∧
      fault.kind ≠ .construction) ∧
    ∀ options, ∃ fault later, Edit.encode options strayUnit = .error fault later ∧
      later.method? ⟨0⟩ = strayUnit.method? ⟨0⟩ := by
  have hstale : Reachable staleUnit := ReachableBy.foldl (fun _ _ _ => trivial) .empty
  have hreachable : Reachable strayUnit := ReachableBy.foldl (fun _ _ _ => trivial) hstale
  obtain ⟨-, hmethod, -, hencode⟩ := Reachable.forms_agree hreachable
  refine ⟨hreachable, by decide +kernel, ?_, ?_⟩
  · have hfails : ((Edit.disassembleMethod ⟨1⟩).outcome strayUnit).toOption.isSome = false := by
      decide +kernel
    cases hd : Edit.disassembleMethod ⟨1⟩ strayUnit with
    | ok _ later =>
      rw [Edit.outcome, hd] at hfails
      cases hfails
    | error fault later =>
      obtain ⟨hlater, hkind⟩ := hmethod ⟨1⟩ fault later hd
      exact ⟨fault, later, rfl, hlater, hkind (by decide +kernel)⟩
  · have hedited : (strayUnit.code? ⟨0⟩).map (fun code => (code.isSymbolic, code.handlers)) =
        some (true, [strayHandler]) := by
      decide +kernel
    obtain ⟨code, hc, hform⟩ := Option.map_eq_some_iff.1 hedited
    obtain ⟨hsymbolic, hhandlers⟩ := Prod.mk.inj hform
    exact hencode ⟨0⟩ code hc hsymbolic strayHandler (by rw [hhandlers]; exact .head _)
      (.offset 0) (.head _) rfl

end ActionBytecode
