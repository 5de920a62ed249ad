/-
  ActionBytecode — units that hold again what was written.

  After a unit is written, two units hold what it held: the unit itself once its code is
  disassembled, and the unit that is read from the bytes.  `CodeUnit.Restores` says what they have
  in common.  Methods, classes and private namespaces may have other names, jumps are resolved, and
  markers that were written stand in the code.

  `CodeUnit.Restores.rebuilds`: such a unit is written in the same way, up to the order in which the
  members of namespace sets stand.
-/
import ActionBytecode.Proofs.Disassembly
import ActionBytecode.Proofs.Reassembly
import ActionBytecode.Proofs.Writing

namespace ActionBytecode

/-- The code of a layout as it is disassembled, with its handlers. -/
def Code.disassembledFrom (r : Renaming) (n : Nat) (layout : List Placement)
    (handlers : List (Handler CodePosition)) : Code :=
  .symbolic (disassembled r n layout) (handlers.map fun handler =>
    (handler.rename r).map (·.renumber fun id => ⟨n + positionOf layout id⟩))

/-- The code of a renamed method as it is written. -/
def AssembledBody.rename (r : Renaming) (written : AssembledBody) : AssembledBody where
  method := r.methods written.method
  frame := written.frame.rename r
  code := written.code
  handlers := written.handlers.map (·.rename r)

/-- The method holds again what was written of another one. -/
structure Method.Restores (a : Indexing) (r : Renaming) (debug : Bool) (method other : Method) :
    Prop where
  signature : method.toSignature.Mirrors r other.toSignature
  body : (method.body = none ∧ other.body = none) ∨ ∃ body emissions layout n,
    method.body = some body ∧ method.emissions body.code debug = .ok emissions ∧
    layOut a 0 [] emissions = .ok layout ∧
    (∀ p ∈ layout, ∀ operand ∈ p.emission.operands, p.Lands layout operand) ∧
    other.body = some
      ⟨body.toFrame.rename r, .disassembledFrom r n layout body.code.handlers⟩

/-- The unit holds again what was written of another one, with the indices `a`. -/
structure CodeUnit.Restores (a : Indexing) (r : Renaming) (debug : Bool) (unit other : CodeUnit) :
    Prop where
  size : other.methods.size = unit.methods.size
  methods : ∀ handle ∈ a.methods, ∀ method, unit.method? handle = some method →
    ∃ restored, other.method? (r.methods handle) = some restored ∧
      method.Restores a r debug restored
  methodOrder : other.methodOrder = a.methods.values.map r.methods
  classes : ∀ handle ∈ a.classes,
    other.class? (r.classes handle) = (unit.class? handle).map (·.rename r)
  scripts : other.scripts = unit.scripts.map (·.rename r)
  metadata : other.metadata.map Metadata.asRead = unit.metadata.map Metadata.asRead

/-! ## References -/

section
variable {r : Renaming}

theorem Use.rename_rename (use : Use) : (use.rename r).rename .refl = use.rename r := by
  cases use with
  | value constant => cases constant <;> rfl
  | name spelling => exact congrArg Use.name (Indexing.spelled?_spelled? spelling)
  | multiname entry => exact congrArg Use.multiname (Multiname.rename_id _)
  | _ => rfl

theorem Use.map_rename_rename (uses : List Use) :
    (uses.map (Use.rename r)).map (Use.rename .refl) = uses.map (Use.rename r) := by
  rw [List.map_map]
  exact List.map_congr_left fun use _ => use.rename_rename

theorem Trait.uses_rename (t : Trait) : (t.rename r).uses = t.uses.map (Use.rename r) := by
  obtain ⟨name, member, isFinal, isOverride, metadata⟩ := t
  cases member with
  | slot kind number type value => cases value <;> rfl
  | _ => rfl

theorem Trait.flatMap_uses_rename (traits : List Trait) :
    (traits.map (·.rename r)).flatMap Trait.uses =
      (traits.flatMap Trait.uses).map (Use.rename r) := by
  rw [List.flatMap_map, List.map_flatMap]
  exact congrArg traits.flatMap (funext uses_rename)

theorem Handler.uses_rename {π ρ : Type} (f : π → ρ) (handler : Handler π) :
    ((handler.rename r).map f).uses = handler.uses.map (Use.rename r) := rfl

theorem ClassDefinition.uses_rename (cls : ClassDefinition) :
    (cls.rename r).uses = cls.uses.map (Use.rename r) := by
  have hp : (cls.protectedNamespace.map r.namespaces).toList.map
      (fun ns => Use.value (.nspace ns)) =
      (cls.protectedNamespace.toList.map fun ns => Use.value (.nspace ns)).map (Use.rename r) := by
    cases cls.protectedNamespace <;> rfl
  simp only [uses, ClassDefinition.rename, List.map_append, List.map_cons, List.map_nil,
    Trait.flatMap_uses_rename, hp, List.map_map]
  rfl

theorem Script.uses_rename (script : Script) :
    (script.rename r).uses = script.uses.map (Use.rename r) :=
  congrArg (Use.method (r.methods script.init) :: ·) (Trait.flatMap_uses_rename script.traits)

theorem Metadata.uses_asRead (entry : Metadata) :
    entry.asRead.uses.map (Use.rename .refl) = entry.uses.map (Use.rename r) := by
  simp only [uses, asRead, List.map_cons, List.flatMap_map, List.map_flatMap, List.map_nil,
    Use.rename, Indexing.spelled?_spelled?]

theorem Metadata.flatMap_uses (entries : List Metadata) :
    (entries.flatMap Metadata.uses).map (Use.rename r) =
      (entries.map Metadata.asRead).flatMap fun entry => entry.uses.map (Use.rename .refl) := by
  rw [List.map_flatMap, List.flatMap_map]
  exact congrArg (List.flatMap · entries) (funext fun entry => (uses_asRead entry).symm)

theorem Signature.Mirrors.uses {s s' : Signature} (h : s.Mirrors r s') :
    s'.uses.map (Use.rename .refl) = s.uses.map (Use.rename r) := by
  have hv (value : DefaultValue) : (Use.value (value.rename r.namespaces)).rename .refl =
      (Use.value value).rename r := (Use.value value).rename_rename
  have hm (name : Multiname) : (Use.multiname (name.rename r.namespaces)).rename .refl =
      (Use.multiname name).rename r := (Use.multiname name).rename_rename
  simp only [Signature.uses, h.returnType, h.parameters, h.optional, h.parameterNames,
    List.map_append, List.map_cons, List.map_map, Function.comp_def, hv, hm]
  simp only [Use.rename, h.name]

end

/-! ## Code -/

section
variable {a : Indexing} {r : Renaming} {debug debug' : Bool} {n : Nat} {layout : List Placement}
  {emissions : List Emission}

/-- Markers are written only where there are none. -/
theorem Signature.any_isDebugMarker {signature : Signature} {code : Code}
    (h : signature.emissions code true = .ok emissions) :
    emissions.any (·.opcode.isDebugMarker) = true := by
  obtain ⟨instructions, hi, he⟩ := bind_eq_ok.1 h
  obtain ⟨handlers, rfl⟩ : ∃ handlers, code = .symbolic instructions handlers := by
    cases code with
    | raw bytes handlers => cases hi
    | symbolic instructions' handlers =>
      cases hi
      exact ⟨handlers, rfl⟩
  by_cases hm : (Code.symbolic instructions handlers).hasDebugMarkers = true
  · rw [hm, Bool.not_true, Bool.and_false, if_neg Bool.false_ne_true] at he
    cases he
    rw [List.any_map]
    exact hm
  · rw [Bool.not_eq_true] at hm
    rw [hm, Bool.not_false, Bool.and_true, if_pos rfl] at he
    cases he
    rfl

/-- Code that was disassembled is written as it is, since it has the markers that it should have. -/
theorem emissions_disassembled {signature other : Signature} {code : Code}
    (hd : debug' = true → debug = true) (he : signature.emissions code debug = .ok emissions)
    (hl : layout.map Placement.emission = emissions) (handlers : List (Handler CodePosition)) :
    other.emissions (.disassembledFrom r n layout handlers) debug' =
      .ok ((disassembled r n layout).map Emission.ofInstruction) := by
  have hmarkers : debug' = true →
      (Code.disassembledFrom r n layout handlers).hasDebugMarkers = true := by
    intro h
    rw [hd h] at he
    have hany := Signature.any_isDebugMarker he
    rw [← hl, ← List.zipIdx_map_fst n layout, List.map_map, List.any_map] at hany
    rw [Code.disassembledFrom, Code.hasDebugMarkers, disassembled, List.any_map]
    exact hany
  rw [Signature.emissions]
  show (if (debug' && !(Code.disassembledFrom r n layout handlers).hasDebugMarkers) = true
    then _ else _) = _
  cases debug' with
  | false => rfl
  | true =>
    rw [hmarkers rfl]
    rfl

theorem uses_disassembled :
    ((disassembled r n layout).map Emission.ofInstruction).flatMap
      (·.operands.flatMap Operand.uses) =
      ((layout.map Placement.emission).flatMap (·.operands.flatMap Operand.uses)).map
        (Use.rename r) := by
  conv_rhs => rw [← List.zipIdx_map_fst n layout]
  simp only [disassembled, List.map_map, List.flatMap_map, List.map_flatMap, Function.comp_def,
    Emission.ofInstruction, Placement.uses_resolved]

end

namespace Method

variable {a b : Indexing} {r : Renaming} {debug debug' : Bool} {method other : Method}

theorem Restores.uses (h : method.Restores a r debug other) (hd : debug' = true → debug = true)
    {uses : List Use} (hu : method.uses debug = .ok uses) :
    ∃ uses', other.uses debug' = .ok uses' ∧
      uses'.map (Use.rename .refl) = uses.map (Use.rename r) := by
  rcases h.body with ⟨hb, hb'⟩ | ⟨body, emissions, layout, n, hb, he, hlayout, hl, hb'⟩
  · rw [Method.uses, hb] at hu
    cases hu
    exact ⟨other.toSignature.uses, by rw [Method.uses, hb']; rfl, h.signature.uses⟩
  · obtain ⟨stop, hout⟩ := laidOut_of_layOut hlayout
    -- markers that were written are instructions now, so none are added
    have he' : other.emissions (.disassembledFrom r n layout body.code.handlers) debug' = _ :=
      emissions_disassembled hd he hout.map_emission body.code.handlers
    rw [Method.uses, hb] at hu
    obtain ⟨emissions', hemissions, hu⟩ := bind_eq_ok.1 hu
    cases he.symm.trans hemissions
    rw [← pure_eq_ok.1 hu]
    rw [Method.uses, hb']
    refine ⟨_, bind_eq_ok.2 ⟨_, he', rfl⟩, ?_⟩
    have hhandlers : ((Code.disassembledFrom r n layout body.code.handlers).handlers).flatMap
        Handler.uses = (body.code.handlers.flatMap Handler.uses).map (Use.rename r) := by
      rw [Code.disassembledFrom, Code.handlers, List.flatMap_map, List.map_flatMap]
      rfl
    have htraits : (body.toFrame.rename r).traits.flatMap Trait.uses =
        (body.traits.flatMap Trait.uses).map (Use.rename r) := Trait.flatMap_uses_rename body.traits
    rw [htraits, hhandlers, uses_disassembled, hout.map_emission]
    simp only [List.map_append, h.signature.uses, Use.map_rename_rename]

/-- The code is assembled to what was written. -/
theorem Restores.assembleBody (h : method.Restores a r debug other)
    (hd : debug' = true → debug = true) (hm : a.Mirrors r b) {handle : MethodHandle}
    {written : Option AssembledBody}
    (hw : CodeUnit.assembleBody a debug handle method = .ok written) :
    CodeUnit.assembleBody b debug' (r.methods handle) other = .ok (written.map (·.rename r)) := by
  rcases h.body with ⟨hb, hb'⟩ | ⟨body, emissions, layout, n, hb, he, hlayout, hl, hb'⟩
  · rw [CodeUnit.assembleBody, hb] at hw
    cases hw
    rw [CodeUnit.assembleBody, hb']
    rfl
  · obtain ⟨stop, hout⟩ := laidOut_of_layOut hlayout
    rw [CodeUnit.assembleBody, hb] at hw
    obtain ⟨emissions', hemissions, hw⟩ := bind_eq_ok.1 hw
    cases he.symm.trans hemissions
    obtain ⟨⟨code, places⟩, hassemble, hw⟩ := bind_eq_ok.1 hw
    rw [← pure_eq_ok.1 hw, CodeUnit.assembleBody, hb']
    exact bind_eq_ok.2 ⟨_, emissions_disassembled hd he hout.map_emission _,
      bind_eq_ok.2 ⟨_, assemble_disassembled hm hassemble hlayout hl n, rfl⟩⟩

end Method

/-! ## Units -/

namespace CodeUnit

section
variable {unit other : CodeUnit} {a b : Indexing} {r : Renaming} {debug debug' : Bool}

theorem Restores.usesMirror (h : unit.Restores a r debug other)
    (hd : debug' = true → debug = true) : unit.UsesMirror other r debug debug' a := by
  intro handle hm method uses hmethod hu
  obtain ⟨restored, hrestored, hr⟩ := h.methods handle hm method hmethod
  obtain ⟨uses', hu', he⟩ := hr.uses hd hu
  exact ⟨restored, uses', hrestored, hu', he⟩

theorem Restores.indexedClasses (h : unit.Restores a r debug other) :
    (a.classes.values.map r.classes).filterMap other.class? =
      (a.classes.values.filterMap unit.class?).map (·.rename r) := by
  rw [List.filterMap_map, List.map_filterMap]
  exact List.filterMap_congr fun handle hm => h.classes handle hm

theorem Restores.uses (h : unit.Restores a r debug other) :
    (other.uses (a.classes.values.map r.classes)).map (Use.rename .refl) =
      ({ unit with methodOrder := a.methods.values }.uses a.classes.values).map (Use.rename r) := by
  have hclasses : ((a.classes.values.map r.classes).filterMap other.class?).flatMap
      ClassDefinition.uses =
      ((a.classes.values.filterMap unit.class?).flatMap ClassDefinition.uses).map
        (Use.rename r) := by
    rw [h.indexedClasses, List.flatMap_map, List.map_flatMap]
    exact congrArg (List.flatMap · _) (funext ClassDefinition.uses_rename)
  have hscripts : other.scripts.flatMap Script.uses =
      (unit.scripts.flatMap Script.uses).map (Use.rename r) := by
    rw [h.scripts, List.flatMap_map, List.map_flatMap]
    exact congrArg (List.flatMap · _) (funext Script.uses_rename)
  have hmethods : ((a.methods.values.map r.methods).map Use.method).map (Use.rename .refl) =
      (a.methods.values.map Use.method).map (Use.rename r) := by
    rw [List.map_map, List.map_map, List.map_map]
    rfl
  have hmetadata : (other.metadata.flatMap Metadata.uses).map (Use.rename .refl) =
      (unit.metadata.flatMap Metadata.uses).map (Use.rename r) := by
    rw [Metadata.flatMap_uses, Metadata.flatMap_uses, h.metadata]
  rw [CodeUnit.uses, CodeUnit.uses, hclasses, hscripts, h.methodOrder]
  simp only [List.map_append, hmetadata, hmethods, Use.map_rename_rename]
  rfl

/-- **The renamed things get the indices of the originals.** -/
theorem Restores.index (h : unit.Restores a r debug other) (hd : debug' = true → debug = true)
    (hr : r.Faithful) (hk : KeepsOrder r.namespaces a.namespaces.values)
    {order : List ClassHandle} (ha : unit.index debug order = .ok a) :
    ∃ b, other.index debug' (a.classes.values.map r.classes) = .ok b ∧ a.Mirrors r b :=
  index_mirrors hr hk ha h.size (h.usesMirror hd) h.uses

/-- The methods with indices correspond, in order of index. -/
theorem Restores.indexedMethods (h : unit.Restores a r debug other)
    (hc : ∀ handle ∈ a.methods, (unit.method? handle).isSome) (hm : a.Mirrors r b) :
    List.Forall₂ (fun entry restored => restored.1 = r.methods entry.1 ∧
      entry.2.Restores a r debug restored.2) (unit.indexedMethods a) (other.indexedMethods b) := by
  have key (handles : List MethodHandle) (hh : ∀ handle ∈ handles, handle ∈ a.methods) :
      List.Forall₂ (fun entry restored => restored.1 = r.methods entry.1 ∧
        entry.2.Restores a r debug restored.2)
        (handles.filterMap fun handle => (unit.method? handle).map (handle, ·))
        ((handles.map r.methods).filterMap fun handle =>
          (other.method? handle).map (handle, ·)) := by
    induction handles with
    | nil => exact .nil
    | cons handle handles ih =>
      obtain ⟨hhandle, hhandles⟩ := List.forall_mem_cons.1 hh
      obtain ⟨method, hmethod⟩ := Option.isSome_iff_exists.1 (hc handle hhandle)
      obtain ⟨restored, hrestored, hr⟩ := h.methods handle hhandle method hmethod
      rw [List.map_cons, List.filterMap_cons, List.filterMap_cons, hmethod, hrestored]
      exact .cons ⟨rfl, hr⟩ (ih hhandles)
  have hall := key a.methods.values fun _ hm => hm
  rw [← hm.methods] at hall
  exact hall

end

theorem assembleBodies_of_restores {unit other : CodeUnit} {a b : Indexing} {r : Renaming}
    {debug debug' : Bool} (hd : debug' = true → debug = true) (hm : a.Mirrors r b)
    (h : List.Forall₂ (fun entry restored => restored.1 = r.methods entry.1 ∧
      entry.2.Restores a r debug restored.2) (unit.indexedMethods a) (other.indexedMethods b))
    {bodies : List AssembledBody} (hb : unit.assembleBodies a debug = .ok bodies) :
    other.assembleBodies b debug' = .ok (bodies.map (·.rename r)) := by
  obtain ⟨found, hfound, hb⟩ := bind_eq_ok.1 hb
  have hrenamed : (unit.indexedMethods a).mapM (fun entry =>
      (Option.map (AssembledBody.rename r)) <$> assembleBody a debug entry.1 entry.2) =
      .ok (found.map (Option.map (AssembledBody.rename r))) := by
    rw [mapM_eq_ok, List.forall₂_map_right_iff]
    exact (mapM_eq_ok.1 hfound).imp fun _ written hw => map_eq_ok.2 ⟨written, hw, rfl⟩
  refine bind_eq_ok.2
    ⟨_, Follows.mapM_of_forall₂ (h.imp fun entry restored he => ?_) _ hrenamed, ?_⟩
  · intro written hw
    obtain ⟨original, ho, rfl⟩ := map_eq_ok.1 hw
    show assembleBody b debug' restored.1 restored.2 = _
    rw [he.1]
    exact he.2.assembleBody hd hm ho
  · rw [← pure_eq_ok.1 hb, List.filterMap_map, List.map_filterMap]
    rfl

/-- **A unit that holds again what was written is written in the same way**, but for its constants,
    where the members of namespace sets can stand in another order. -/
theorem Restores.rebuilds {unit other : CodeUnit} {b : Indexing} {r : Renaming}
    {options options' : EncodeOptions} {order : List ClassHandle} {s : Sections}
    {rebuilt : Rebuilt} {pool : Bytes} (hr : unit.Rebuilds options order s rebuilt)
    (h : unit.Restores rebuilt.indexing r options.debugInstrumentation other)
    (hd : options'.debugInstrumentation = true → options.debugInstrumentation = true)
    (hf : r.Faithful) (hm : rebuilt.indexing.Mirrors r b)
    (horder : other.classOrderFor options'.mainClass =
      .ok (rebuilt.indexing.classes.values.map r.classes))
    (hindex : other.index options'.debugInstrumentation
      (rebuilt.indexing.classes.values.map r.classes) = .ok b)
    (hpool : b.poolBytes = .ok pool) :
    ∃ bodies, other.rebuild options' = .ok ⟨{ s with pool }.bytes, b, bodies⟩ := by
  have hc : ∀ handle ∈ rebuilt.indexing.methods, (unit.method? handle).isSome := by
    intro handle hm
    obtain ⟨method, -, hmethod, -⟩ := (index_spec hr.index_eq).2.2.2 handle hm
    rw [hmethod]
    rfl
  have hmethods := h.indexedMethods hc hm
  have hcount : other.metadata.length = unit.metadata.length := by
    simpa using congrArg List.length h.metadata
  have hclasses : other.indexedClasses b =
      (unit.indexedClasses rebuilt.indexing).map (·.rename r) := by
    rw [CodeUnit.indexedClasses, hm.classes]
    exact h.indexedClasses
  refine ⟨rebuilt.bodies.map (·.rename r), rebuild_eq_ok.2 ⟨_, { s with pool }, horder, hindex,
    hpool, ?_, ?_, ?_, ?_, ?_, ?_, rfl⟩⟩
  · refine Follows.list_of_forall₂ (hmethods.imp fun entry restored he => ?_) _ hr.signatures
    exact Indexing.follows_signatureBytes hf hm he.2.signature
  · have hmetadata := map_eq_map_iff.1 h.metadata
    exact Follows.list_of_forall₂ (hmetadata.flip.imp fun _ _ he =>
      Indexing.follows_metadataBytes hm he) _ hr.metadata
  · rw [hclasses, hcount]
    exact Indexing.follows_classesBytes hf hm _ _ _ hr.classes
  · rw [h.scripts, hcount]
    exact Follows.list (Indexing.follows_scriptBytes hf hm _) _ hr.scripts
  · exact assembleBodies_of_restores hd hm hmethods hr.assembled
  · rw [hcount]
    exact Follows.list (fun written => Indexing.follows_bodyBytes hf hm _ written.method
      written.frame written.code written.handlers) _ hr.bodies

end CodeUnit

/-! ## Code that is disassembled -/

/-- The method has the bytes that were written of another one. -/
structure Method.Keeps (a : Indexing) (r : Renaming) (debug : Bool) (method kept : Method) :
    Prop where
  signature : method.toSignature.Mirrors r kept.toSignature
  body : (method.body = none ∧ kept.body = none) ∨ ∃ body emissions code places,
    method.body = some body ∧ method.emissions body.code debug = .ok emissions ∧
    assemble a emissions body.code.handlers = .ok (code, places) ∧
    code.length < 0x40000000 ∧
    kept.body = some ⟨body.toFrame.rename r, .ofWire code (places.map (·.rename r))⟩

/-- Whether a method with the bytes of another one can be disassembled does not depend on the
    numbers that its instructions get.  Then it holds again what was written. -/
theorem Method.Keeps.disassemble {tables : Tables} {a : Indexing} {r : Renaming} {debug : Bool}
    {method kept : Method} (h : tables.Shows a r) (hk : method.Keeps a r debug kept) :
    (∀ n, ∃ restored m, kept.disassemble tables n = .ok restored m ∧
      method.Restores a r debug restored) ∨
    ∀ n, ∃ fault m, kept.disassemble tables n = .error fault m := by
  obtain ⟨signature, kept⟩ := kept
  rcases hk.body with ⟨hb, rfl⟩ | ⟨body, emissions, code, places, hb, he, ha, hlength, rfl⟩
  · exact .inl fun n => ⟨_, n, rfl, hk.signature, .inl ⟨hb, rfl⟩⟩
  · obtain ⟨layout, stop, -, hlayout, hread⟩ := disassemble_readable h ha (by omega)
    by_cases hl : ∀ p ∈ layout, ∀ operand ∈ p.emission.operands,
        operand.LegibleIn a ∧ p.Lands layout operand
    · refine .inl fun n => ⟨_, _, run_bind_of_ok ((hread n).1 hl), hk.signature, .inr ?_⟩
      exact ⟨body, emissions, layout, n, hb, he, hlayout,
        fun p hp operand ho => (hl p hp operand ho).2, rfl⟩
    · refine .inr fun n => ?_
      obtain ⟨fault, m, hfault⟩ := (hread n).2 hl
      exact ⟨fault, m, run_bind_of_error hfault⟩

/-- **A method with the bytes of another one holds again what was written of it, once it is
    disassembled.** -/
theorem Method.Keeps.restores {tables : Tables} {a : Indexing} {r : Renaming} {debug : Bool}
    {method kept restored : Method} {n m : Nat} (h : tables.Shows a r)
    (hk : method.Keeps a r debug kept) (hd : kept.disassemble tables n = .ok restored m) :
    method.Restores a r debug restored := by
  rcases hk.disassemble h with hok | hfail
  · obtain ⟨restored', m', hd', hr⟩ := hok n
    cases hd.symm.trans hd'
    exact hr
  · obtain ⟨fault, m', hd'⟩ := hfail n
    cases hd.symm.trans hd'

/-- Each method of a unit that is disassembled is. -/
theorem Edit.method?_of_disassemble {unit later : CodeUnit}
    (h : Edit.disassemble unit = .ok () later) {handle : MethodHandle} {method : Method}
    (hm : unit.method? handle = some method) :
    ∃ converted n m, later.method? handle = some converted ∧
      method.disassemble unit.tables n = .ok converted m := by
  obtain ⟨methods, next, hmethods, rfl⟩ := disassemble_eq_ok.1 h
  have hall : List.Forall₂ (fun method converted => ∃ n m,
      method.disassemble unit.tables n = .ok converted m) unit.methods.toList methods :=
    forall₂_of_run_mapM hmethods fun _ _ n _ m hd => ⟨n, m, hd⟩
  rw [CodeUnit.method?, ← Array.getElem?_toList] at hm
  obtain ⟨converted, hconverted, n, m, hd⟩ := exists_getElem? hall hm
  refine ⟨converted, n, m, ?_, hd⟩
  rw [CodeUnit.method?, List.getElem?_toArray]
  exact hconverted

end ActionBytecode
