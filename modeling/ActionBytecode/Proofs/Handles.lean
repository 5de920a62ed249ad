/-
  ActionBytecode — handles and orders.

  Methods and classes are known by handles, and the orders of a unit say how they stand on the wire.
  Whatever was done to a unit, each of its handles stands in its order just once
  (`ReachableBy.distinct`).

  Disassembling a unit and writing it change the code of its methods, and writing it can also change
  the orders.  What a method declares stays (`declared_commit`), and so do the classes, the scripts
  and the metadata; a main class moves to the end of its order and the others stay as they stand
  (`classOrder_commit`).
-/
import ActionBytecode.Proofs.Encodability
import ActionBytecode.Proofs.Recovery
import ActionBytecode.Proofs.Revisit

namespace ActionBytecode

/-! ## Orders without repetitions -/

/-- No handle stands twice in an order. -/
structure CodeUnit.Distinct (unit : CodeUnit) : Prop where
  methods : unit.methodOrder.Nodup
  classes : unit.classOrder.Nodup

namespace CodeUnit

variable {unit later : CodeUnit}

theorem Distinct.kept (h : unit.Distinct) (hk : Kept unit later) : later.Distinct where
  methods := hk.methodOrder ▸ h.methods
  classes := hk.classOrder ▸ h.classes

/-- A handle that is not in use yet does not stand in the order. -/
theorem nodup_append_next {α : Type} {index : α → Nat} {order : List α} {size : Nat} {next : α}
    (hn : order.Nodup) (hnext : index next = size) (h : ∀ a, a ∈ order ↔ index a < size) :
    (order ++ [next]).Nodup := by
  refine List.nodup_append.2 ⟨hn, List.nodup_singleton next, ?_⟩
  intro a ha b hb he
  rw [List.mem_singleton] at hb
  have hlt := (h a).1 ha
  rw [he, hb, hnext] at hlt
  exact Nat.lt_irrefl size hlt

theorem Distinct.methodJoins (h : unit.Distinct) (ho : unit.Ordered) (hj : MethodJoins unit later) :
    later.Distinct where
  methods := hj.methodOrder ▸ nodup_append_next h.methods rfl ho.methods
  classes := hj.classOrder ▸ h.classes

theorem Distinct.classJoins (h : unit.Distinct) (ho : unit.Ordered) (hj : ClassJoins unit later) :
    later.Distinct where
  methods := hj.methodOrder ▸ h.methods
  classes := hj.classOrder ▸ nodup_append_next h.classes rfl ho.classes

theorem distinct_of_decode {bytes : Bytes} (h : CodeUnit.decode bytes = .ok unit) :
    unit.Distinct := by
  obtain ⟨hm, hc⟩ := orders_of_decode h
  constructor
  · rw [hm]
    exact List.nodup_range.map fun _ _ => MethodHandle.mk.inj
  · rw [hc]
    exact List.nodup_range.map fun _ _ => ClassHandle.mk.inj

theorem Distinct.run (h : unit.Distinct) (ho : unit.Ordered) (operation : Operation) :
    (operation.run unit).Distinct := by
  rcases operation.run_cases unit with hk | hj | hj | ⟨options, plain, rebuilt, rfl, -, -, he⟩
  · exact h.kept hk
  · exact h.methodJoins ho hj
  · exact h.classJoins ho hj
  · -- the orders of a unit that was written are numberings
    have hrun : (Operation.encode options).run unit = plain.commit rebuilt := Edit.after_of_ok he
    rw [hrun]
    exact ⟨rebuilt.indexing.methods.nodup, rebuilt.indexing.classes.nodup⟩

end CodeUnit

/-- **In a unit that can be reached, no handle stands twice in an order.** -/
theorem ReachableBy.distinct {allowed : CodeUnit → Operation → Prop} {unit : CodeUnit}
    (h : ReachableBy allowed unit) : unit.Distinct := by
  induction h with
  | empty => exact ⟨List.nodup_nil, List.nodup_nil⟩
  | decode h => exact CodeUnit.distinct_of_decode h
  | step h _ ih => exact ih.run h.ordered _

/-- Distinct values, one for each index below a bound, are a rearrangement of all of them. -/
theorem perm_range {α : Type} {index : α → Nat} {make : Nat → α} (hmake : ∀ i, index (make i) = i)
    (hindex : ∀ a, make (index a) = a) {order : List α} {size : Nat} (hn : order.Nodup)
    (h : ∀ a, a ∈ order ↔ index a < size) : order.Perm ((List.range size).map make) := by
  have hinj : Function.Injective make := Function.LeftInverse.injective hmake
  refine (List.perm_ext_iff_of_nodup hn (List.nodup_range.map hinj)).2 fun a => ?_
  rw [h a, List.mem_map]
  constructor
  · intro hlt
    exact ⟨index a, List.mem_range.2 hlt, hindex a⟩
  · rintro ⟨i, hi, rfl⟩
    rw [hmake]
    exact List.mem_range.1 hi

/-! ## What stays -/

namespace Edit

/-- **What disassembling a unit can change**, also when it fails: the code of the methods, the
    counter of identities and the bytes. -/
theorem disassemble_after (unit : CodeUnit) : ∃ methods next written,
    disassemble.after unit = { unit with methods, nextInstruction := next, written } ∧
      methods.map Method.declared = unit.methods.map Method.declared := by
  have key {before converted : List Method} {n m : Nat}
      (h : before.mapM (Method.disassemble unit.tables) n = .ok converted m) :
      converted.map Method.declared = before.map Method.declared :=
    (map_eq_map_iff.2 (forall₂_of_run_mapM h fun _ _ _ _ _ hd =>
      (Method.declared_of_disassemble hd).symm)).symm
  unfold after
  cases hd : disassemble unit with
  | ok _ plain =>
    obtain ⟨methods, next, hm, rfl⟩ := disassemble_eq_ok.1 hd
    refine ⟨_, _, _, rfl, Array.toList_inj.1 ?_⟩
    rw [Array.toList_map, Array.toList_map]
    exact key hm
  | error fault plain =>
    obtain ⟨before, failed, after, converted, m, next, hs, hc, -, rfl⟩ := disassemble_eq_error.1 hd
    refine ⟨_, _, _, rfl, Array.toList_inj.1 ?_⟩
    rw [Array.toList_map, Array.toList_map, hs]
    simp only [List.map_append, key hc]

end Edit

namespace CodeUnit

variable {unit : CodeUnit} {options : EncodeOptions} {rebuilt : Rebuilt}

theorem declared_withWritten {written : AssembledBody} {method : Method} {body : Body}
    (hb : method.body = some body) (h : written.handlers.map Handler.caught = body.code.caught) :
    (withWritten written method).declared = method.declared := by
  simp only [withWritten, Method.declared, hb, Option.map_some, Code.caught_ofWire, h]

/-- **What the methods of a unit declare stays when it is written.** -/
theorem declared_commit (hr : unit.rebuild options = .ok rebuilt) :
    (unit.commit rebuilt).methods.map Method.declared = unit.methods.map Method.declared := by
  have hsame : List.Forall₂ (fun later method : Method => later.declared = method.declared)
      (unit.commit rebuilt).methods.toList unit.methods.toList := by
    refine forall₂_commit fun handle method hm => ?_
    by_cases hw : ∃ written ∈ rebuilt.bodies, written.method = handle
    · obtain ⟨written, hw, rfl⟩ := hw
      obtain ⟨body, emissions, hb, -, ha⟩ := assembled_of_mem hr hw hm
      obtain ⟨layout, pieces, -, -, -, hh⟩ := assemble_eq_ok.1 ha
      refine ⟨withWritten written method, by rw [commit_of_assembled hr hw, hm]; rfl, ?_⟩
      exact declared_withWritten hb (Handler.map_caught_of_mapM hh)
    · refine ⟨method, (commit_of_not_assembled fun written hmem he => ?_).trans hm, rfl⟩
      exact hw ⟨written, hmem, he⟩
  apply Array.toList_inj.1
  rw [Array.toList_map, Array.toList_map]
  exact map_eq_map_iff.2 hsame

/-! ## The order of the classes -/

/-- The class that is named is the first of its name. -/
theorem classNamed?_split {name : String} {main : ClassHandle}
    (h : unit.classNamed? name = some main) : ∃ before after cls,
      unit.classOrder = before ++ main :: after ∧ unit.class? main = some cls ∧
      cls.name.dotted? = some name ∧
      ∀ handle ∈ before, ∀ other, unit.class? handle = some other →
        other.name.dotted? ≠ some name := by
  obtain ⟨⟨_, cls⟩, hfind, rfl⟩ := Option.map_eq_some_iff.1 h
  obtain ⟨hname, earlier, others, hsplit, hearlier⟩ := List.find?_eq_some_iff_append.1 hfind
  obtain ⟨front, rest, horder, hfront, hrest⟩ := List.filterMap_eq_append_iff.1 hsplit
  obtain ⟨skipped, main, after, rfl, hskipped, hmain, -⟩ := List.filterMap_eq_cons_iff.1 hrest
  obtain ⟨_, hcls, he⟩ := Option.map_eq_some_iff.1 hmain
  cases he
  refine ⟨front ++ skipped, after, cls, by rw [horder, List.append_assoc], hcls,
    by simpa using hname, fun handle hh other hother => ?_⟩
  have hentry : (unit.class? handle).map (handle, ·) = some (handle, other) := by rw [hother]; rfl
  rcases List.mem_append.1 hh with hh | hh
  · have hmem : (handle, other) ∈ earlier := hfront ▸ List.mem_filterMap.2 ⟨handle, hh, hentry⟩
    simpa using hearlier _ hmem
  · cases (hskipped handle hh).symm.trans hentry

theorem filter_ne_of_nodup {α : Type} [DecidableEq α] {before after : List α} {a : α}
    (h : (before ++ a :: after).Nodup) :
    (before ++ a :: after).filter (· ≠ a) = before ++ after := by
  obtain ⟨-, hafter, hdisjoint⟩ := List.nodup_append.1 h
  have hbefore : before.filter (· ≠ a) = before :=
    List.filter_eq_self.2 fun b hb => decide_eq_true (hdisjoint b hb a List.mem_cons_self)
  have hrest : after.filter (· ≠ a) = after :=
    List.filter_eq_self.2 fun b hb => decide_eq_true (ne_of_mem_of_not_mem hb
      (List.nodup_cons.1 hafter).1)
  rw [List.filter_append, hbefore, List.filter_cons_of_neg (by simp), hrest]

/-- **A main class is written last, and the others in the order in which they stand.** -/
theorem classOrder_commit (hr : unit.rebuild options = .ok rebuilt) (hd : unit.Distinct) :
    (options.mainClass = none → (unit.commit rebuilt).classOrder = unit.classOrder) ∧
    ∀ name, options.mainClass = some name → ∃ before main after cls,
      unit.classOrder = before ++ main :: after ∧ unit.class? main = some cls ∧
      cls.name.dotted? = some name ∧
      (∀ handle ∈ before, ∀ other, unit.class? handle = some other →
        other.name.dotted? ≠ some name) ∧
      (unit.commit rebuilt).classOrder = before ++ after ++ [main] := by
  obtain ⟨order, s, hr⟩ := rebuild_eq_ok.1 hr
  have hclasses : (unit.commit rebuilt).classOrder = (Numbering.ofList order).values :=
    congrArg Numbering.values (index_spec hr.index_eq).2.1
  have horder := hr.order_eq
  rw [hclasses]
  constructor
  · intro hn
    rw [hn] at horder
    cases horder
    exact Numbering.values_ofList hd.classes
  · intro name hname
    rw [hname, classOrderFor] at horder
    cases hmain : unit.classNamed? name with
    | none => rw [hmain] at horder; cases horder
    | some main =>
      rw [hmain] at horder
      cases horder
      obtain ⟨before, after, cls, hsplit, hcls, hn, hfirst⟩ := classNamed?_split hmain
      have hnodup := hd.classes
      rw [hsplit] at hnodup
      refine ⟨before, main, after, cls, hsplit, hcls, hn, hfirst, ?_⟩
      rw [hsplit, filter_ne_of_nodup hnodup]
      have hperm : (before ++ main :: after).Perm (before ++ after ++ [main]) :=
        List.perm_middle.trans (List.perm_append_singleton main (before ++ after)).symm
      exact Numbering.values_ofList (hperm.nodup_iff.1 hnodup)

end CodeUnit

/-- **Each handle of a unit that can be reached stands in its order just once; and a unit that is
    written anew keeps all that it declares, and has its main class at the end.** -/
theorem Reachable.handles_stay {unit : CodeUnit} (h : Reachable unit) :
    unit.methodOrder.Perm ((List.range unit.methods.size).map MethodHandle.mk) ∧
    unit.classOrder.Perm ((List.range unit.classes.size).map ClassHandle.mk) ∧
    ∀ options bytes later, unit.isTampered →
      Edit.encode options unit = .ok bytes later →
      later.methods.map Method.declared = unit.methods.map Method.declared ∧
      later.classes = unit.classes ∧ later.scripts = unit.scripts ∧
      later.metadata = unit.metadata ∧
      (options.mainClass = none → later.classOrder = unit.classOrder) ∧
      ∀ name, options.mainClass = some name → ∃ before main after cls,
        unit.classOrder = before ++ main :: after ∧ unit.class? main = some cls ∧
        cls.name.dotted? = some name ∧
        (∀ handle ∈ before, ∀ other, unit.class? handle = some other →
          other.name.dotted? ≠ some name) ∧
        later.classOrder = before ++ after ++ [main] := by
  have hdistinct := h.distinct
  refine ⟨perm_range (fun _ => rfl) (fun _ => rfl) hdistinct.methods h.ordered.methods,
    perm_range (fun _ => rfl) (fun _ => rfl) hdistinct.classes h.ordered.classes, ?_⟩
  intro options bytes later ht he
  obtain ⟨methods, next, written, hafter, hdeclared⟩ := Edit.disassemble_after unit
  rcases Edit.encode_eq_ok.1 he with ⟨hc, -⟩ | ⟨-, plain, rebuilt, hd, hr, -, rfl⟩
  · rw [CodeUnit.current?_eq_none.2 ht] at hc
    cases hc
  · obtain rfl : plain = { unit with methods, nextInstruction := next, written } := by
      rw [← hafter, Edit.after_of_ok hd]
    obtain ⟨hstay, hmove⟩ :=
      CodeUnit.classOrder_commit hr ⟨hdistinct.methods, hdistinct.classes⟩
    exact ⟨(CodeUnit.declared_commit hr).trans hdeclared, rfl, rfl, rfl, hstay, hmove⟩

/-! Three classes, the second of which is to be written last, after a first attempt that failed. -/

/-- The unit of the three classes. -/
def trioUnit : CodeUnit :=
  [.createMethod {}, .createMethod { body := some { code := switchCode } },
    .createClass (.qualified false (.ofKind .package "p" 0) "Main") (.platform .any) ⟨0⟩ ⟨0⟩,
    .encode ⟨true, some "Main"⟩,
    .createClass mainName (.defined ⟨0⟩) ⟨0⟩ ⟨1⟩,
    .createClass (.qualified false (.ofKind .package "p" 0) "Last") (.defined ⟨1⟩) ⟨0⟩ ⟨0⟩].foldl
      (fun unit (operation : Operation) => operation.run unit) .empty

theorem encode_trioUnit : ∃ bytes later, Edit.encode ⟨true, some "Main"⟩ trioUnit = .ok bytes later ∧
    trioUnit.classOrder = [⟨0⟩, ⟨1⟩, ⟨2⟩] ∧ later.classOrder = [⟨0⟩, ⟨2⟩, ⟨1⟩] ∧
    later.classes = trioUnit.classes ∧
    later.methods.map Method.declared = trioUnit.methods.map Method.declared := by
  obtain ⟨-, -, h⟩ := Reachable.handles_stay
    (show Reachable trioUnit from ReachableBy.foldl (fun _ _ _ => trivial) .empty)
  have hok : ((Edit.encode ⟨true, some "Main"⟩).outcome trioUnit).toOption.isSome := by
    decide +kernel
  cases he : Edit.encode ⟨true, some "Main"⟩ trioUnit with
  | error fault left =>
    rw [Edit.outcome, he] at hok
    cases hok
  | ok bytes later =>
    obtain ⟨hdeclared, hclasses, -, -, -, hmove⟩ := h _ bytes later (by decide) he
    obtain ⟨before, main, after, cls, horder, hmain, hname, -, hlater⟩ := hmove "Main" rfl
    have hstart : trioUnit.classOrder = [⟨0⟩, ⟨1⟩, ⟨2⟩] := by decide
    refine ⟨bytes, later, rfl, hstart, ?_, hclasses, hdeclared⟩
    have hothers : [⟨0⟩, ⟨2⟩].all (fun handle =>
      (trioUnit.class? handle).bind (·.name.dotted?) ≠ some "Main") = true := by decide
    have hnot : main ∉ [⟨0⟩, ⟨2⟩] := fun hm => by
      simpa [hmain, hname] using List.all_eq_true.1 hothers main hm
    rw [hstart] at horder
    rcases before with _ | ⟨first, _ | ⟨second, _ | ⟨third, before⟩⟩⟩
    · cases horder
      simp at hnot
    · cases horder
      exact hlater
    · cases horder
      simp at hnot
    · simp at horder

end ActionBytecode
