/-
  ActionBytecode — everything that a unit refers to has an index.

  * `visit_spec`: a visit that succeeds gives the reference an index (`Indexing.Covers`), and all
    that a method refers to has one when the visit that met the method is over;
  * `visit_isOk`: a visit succeeds if every handle that it can meet is one of the unit.  As many
    methods as have no index yet are enough to bound it;
  * `index_isOk`, `index_spec`: both, for the references of a whole unit.
-/
import ActionBytecode.CodeUnit.Uses
import ActionBytecode.Proofs.Indexing

namespace ActionBytecode

theorem MethodHandle.index_injective : Function.Injective MethodHandle.index :=
  fun ⟨_⟩ ⟨_⟩ h => congrArg MethodHandle.mk h

theorem ClassHandle.index_injective : Function.Injective ClassHandle.index :=
  fun ⟨_⟩ ⟨_⟩ h => congrArg ClassHandle.mk h

/-! ## References with an index -/

/-- What is referred to has an index. -/
def Indexing.Covers (a : Indexing) : Use → Prop
  | .value value => a.CoversValue value
  | .name name => a.CoversName name
  | .multiname name => name ∈ a.multinames
  | .method handle => handle ∈ a.methods
  | .instructionClass handle | .traitClass handle => handle ∈ a.classes

theorem Indexing.Extends.covers {a b : Indexing} (h : a.Extends b) {use : Use}
    (hu : a.Covers use) : b.Covers use := by
  cases use with
  | value => exact h.coversValue hu
  | name => exact h.coversName hu
  | multiname => exact h.multinames.mem hu
  | method => exact h.methods.mem hu
  | instructionClass | traitClass =>
    rw [Indexing.Covers, h.classes]
    exact hu

theorem Indexing.extends_method (a : Indexing) (handle : MethodHandle) :
    a.Extends { a with methods := a.methods.register handle } :=
  { Indexing.Extends.refl a with methods := Numbering.extends_register _ _ }

namespace CodeUnit

section
variable (unit : CodeUnit) (debug : Bool)

/-- The method exists, and all that it refers to has an index. -/
def Complete (a : Indexing) (handle : MethodHandle) : Prop :=
  ∃ method uses, unit.method? handle = some method ∧ method.uses debug = .ok uses ∧
    ∀ use ∈ uses, a.Covers use

/-- What a visit does to the indices: it adds to them, and the methods that it adds are complete
    in the end. -/
structure Visits (a b : Indexing) : Prop extends a.Extends b where
  closed : a.Closed → b.Closed
  complete : ∀ handle ∈ b.methods, handle ∉ a.methods → unit.Complete debug b handle

variable {unit debug} {a b c : Indexing}

theorem Complete.mono {handle : MethodHandle} (h : unit.Complete debug a handle)
    (hx : a.Extends b) : unit.Complete debug b handle := by
  obtain ⟨method, uses, hm, hu, hc⟩ := h
  exact ⟨method, uses, hm, hu, fun use hmem => hx.covers (hc use hmem)⟩

theorem Visits.refl (a : Indexing) : unit.Visits debug a a :=
  ⟨.refl a, fun h => h, fun _ h hn => absurd h hn⟩

theorem Visits.trans (h : unit.Visits debug a b) (h' : unit.Visits debug b c) :
    unit.Visits debug a c where
  toExtends := h.toExtends.trans h'.toExtends
  closed hc := h'.closed (h.closed hc)
  complete handle hm hn := by
    by_cases hb : handle ∈ b.methods
    · exact (h.complete handle hb hn).mono h'.toExtends
    · exact h'.complete handle hm hb

theorem visits_of_enlarges (h : a.Enlarges b) : unit.Visits debug a b :=
  ⟨h.toExtends, h.closed, fun _ hm hn => absurd (h.handles ▸ hm) hn⟩

/-- What holds of the visit of one reference holds of the visit of several. -/
theorem visits_foldlM {visit : Indexing → Use → Except Fault Indexing}
    (hv : ∀ a use b, visit a use = .ok b → unit.Visits debug a b ∧ b.Covers use) (uses : List Use) :
    ∀ a b, uses.foldlM visit a = .ok b →
      unit.Visits debug a b ∧ ∀ use ∈ uses, b.Covers use := by
  induction uses with
  | nil =>
    intro a b h
    cases h
    exact ⟨.refl a, by simp⟩
  | cons use uses ih =>
    intro a c h
    rw [List.foldlM_cons, bind_eq_ok] at h
    obtain ⟨b, hb, hc⟩ := h
    obtain ⟨hab, hu⟩ := hv a use b hb
    obtain ⟨hbc, hus⟩ := ih b c hc
    exact ⟨hab.trans hbc, List.forall_mem_cons.2 ⟨hbc.covers hu, hus⟩⟩

/-- Registering a method and visiting all that it refers to completes it. -/
theorem visits_method {handle : MethodHandle} {method : Method} {uses : List Use}
    (hm : unit.method? handle = some method) (hu : method.uses debug = .ok uses)
    (hv : unit.Visits debug { a with methods := a.methods.register handle } b)
    (hc : ∀ use ∈ uses, b.Covers use) : unit.Visits debug a b where
  toExtends := (Indexing.extends_method a handle).trans hv.toExtends
  closed h := hv.closed ⟨h.global, h.empty, h.any, h.names, h.members, h.parts⟩
  complete other ho hn := by
    by_cases he : other = handle
    · exact he ▸ ⟨method, uses, hm, hu, hc⟩
    · refine hv.complete other ho fun hr => ?_
      rcases Numbering.mem_register.1 hr with hr | hr
      · exact hn hr
      · exact he hr

/-- The visit of a method that has no index yet. -/
theorem visit_method_eq_ok {n : Nat} {handle : MethodHandle} (hn : handle ∉ a.methods) :
    unit.visit debug n a (.method handle) = .ok b ↔
      ∃ m method uses, n = m + 1 ∧ unit.method? handle = some method ∧
        method.uses debug = .ok uses ∧ uses.foldlM (unit.visit debug m)
          { a with methods := a.methods.register handle } = .ok b := by
  rw [visit.eq_def]
  simp only [if_neg hn]
  cases n with
  | zero => simp
  | succ n => cases unit.method? handle <;> simp [bind_eq_ok]

/-- A class or a method that has an index is left at that. -/
theorem visit_of_mem {n : Nat} {handle : MethodHandle} (hm : handle ∈ a.methods) :
    unit.visit debug n a (.method handle) = .ok a := by
  rw [visit.eq_def]
  simp only [if_pos hm]

theorem visit_value {n : Nat} (value : DefaultValue) :
    unit.visit debug n a (.value value) = .ok (a.addValue value) := by
  rw [visit.eq_def]

theorem visit_name {n : Nat} (name : Option String) :
    unit.visit debug n a (.name name) = .ok (a.addName name) := by
  rw [visit.eq_def]

theorem visit_multiname {n : Nat} (name : Multiname) :
    unit.visit debug n a (.multiname name) = .ok (a.addMultiname name) := by
  rw [visit.eq_def]

theorem visit_class_eq_ok {n : Nat} {handle : ClassHandle} {use : Use}
    (hu : use = .instructionClass handle ∨ use = .traitClass handle) :
    unit.visit debug n a use = .ok b ↔ handle ∈ a.classes ∧ a = b := by
  rcases hu with rfl | rfl <;>
  · rw [visit.eq_def]
    by_cases h : handle ∈ a.classes <;> simp [h]

/-- **A visit gives the reference an index, and completes each method that it meets.** -/
theorem visit_spec : ∀ (n : Nat) (a : Indexing) (use : Use) (b : Indexing),
    unit.visit debug n a use = .ok b → unit.Visits debug a b ∧ b.Covers use := by
  intro n
  induction n using Nat.strong_induction_on with
  | _ n ih =>
    intro a use b h
    cases use with
    | value value =>
      rw [← Except.ok.inj ((visit_value value).symm.trans h)]
      exact ⟨visits_of_enlarges (Indexing.enlarges_addValue a value).1,
        (Indexing.enlarges_addValue a value).2⟩
    | name name =>
      rw [← Except.ok.inj ((visit_name name).symm.trans h)]
      exact ⟨visits_of_enlarges (Indexing.enlarges_addName a name),
        Indexing.coversName_addName a name⟩
    | multiname name =>
      rw [← Except.ok.inj ((visit_multiname name).symm.trans h)]
      exact ⟨visits_of_enlarges (Indexing.enlarges_addMultiname name a).1,
        (Indexing.enlarges_addMultiname name a).2⟩
    | instructionClass handle =>
      obtain ⟨hm, rfl⟩ := (visit_class_eq_ok (Or.inl rfl)).1 h
      exact ⟨.refl a, hm⟩
    | traitClass handle =>
      obtain ⟨hm, rfl⟩ := (visit_class_eq_ok (Or.inr rfl)).1 h
      exact ⟨.refl a, hm⟩
    | method handle =>
      by_cases hn : handle ∈ a.methods
      · rw [visit_of_mem hn] at h
        cases h
        exact ⟨.refl a, hn⟩
      · obtain ⟨m, method, uses, rfl, hm, hu, hf⟩ := (visit_method_eq_ok hn).1 h
        obtain ⟨hv, hc⟩ := visits_foldlM (ih m (Nat.lt_succ_self m)) uses _ b hf
        exact ⟨visits_method hm hu hv hc, hv.methods.mem (Numbering.mem_register_self _ _)⟩

/-! ## When a visit succeeds -/

/-- The handle that is referred to is one of the unit, or one of the classes to be written. -/
def ValidUse (unit : CodeUnit) (classes : Numbering ClassHandle) : Use → Prop
  | .method handle => (unit.method? handle).isSome
  | .instructionClass handle | .traitClass handle => handle ∈ classes
  | .value _ | .name _ | .multiname _ => True

/-- All that the methods of the unit refer to is valid. -/
def ValidMethods (unit : CodeUnit) (debug : Bool) (classes : Numbering ClassHandle) : Prop :=
  ∀ handle method, unit.method? handle = some method →
    ∃ uses, method.uses debug = .ok uses ∧ ∀ use ∈ uses, unit.ValidUse classes use

/-- Indices from which a visit can go on: they are of methods of the unit, of which at most
    `n` have none. -/
structure Ready (unit : CodeUnit) (classes : Numbering ClassHandle) (n : Nat) (a : Indexing) :
    Prop where
  valid : ∀ handle ∈ a.methods, (unit.method? handle).isSome
  bound : unit.methods.size ≤ n + a.methods.size
  classes : a.classes = classes

theorem Ready.visits {classes : Numbering ClassHandle} {n : Nat} (h : unit.Ready classes n a)
    (hv : unit.Visits debug a b) : unit.Ready classes n b where
  valid handle hm := by
    by_cases hn : handle ∈ a.methods
    · exact h.valid handle hn
    · obtain ⟨method, -, hmethod, -⟩ := hv.complete handle hm hn
      rw [hmethod]
      rfl
  bound := by
    have : a.methods.size ≤ b.methods.size := hv.methods.length_le
    have := h.bound
    omega
  classes := hv.classes.trans h.classes

/-- If no method is without an index, a handle without one is not of a method. -/
theorem Ready.mem_methods {classes : Numbering ClassHandle} (h : unit.Ready classes 0 a)
    {handle : MethodHandle} (hm : (unit.method? handle).isSome) : handle ∈ a.methods := by
  have lt {handle : MethodHandle} (hm : (unit.method? handle).isSome) :
      handle.index < unit.methods.size := by
    simpa [method?] using hm
  have hnodup : (a.methods.values.map MethodHandle.index).Nodup :=
    a.methods.nodup.map MethodHandle.index_injective
  have hsub : a.methods.values.map MethodHandle.index ⊆ List.range unit.methods.size := by
    intro i hi
    obtain ⟨handle, hmem, rfl⟩ := List.mem_map.1 hi
    exact List.mem_range.2 (lt (h.valid handle hmem))
  have hperm := (List.subperm_of_subset hnodup hsub).perm_of_length_le (by
    rw [List.length_range, List.length_map]
    have := h.bound
    rwa [Nat.zero_add] at this)
  obtain ⟨other, hmem, he⟩ := List.mem_map.1 (hperm.mem_iff.2 (List.mem_range.2 (lt hm)))
  exact MethodHandle.index_injective he ▸ hmem

theorem Ready.register {classes : Numbering ClassHandle} {n : Nat}
    (h : unit.Ready classes (n + 1) a) {handle : MethodHandle}
    (hm : (unit.method? handle).isSome) (hn : handle ∉ a.methods) :
    unit.Ready classes n { a with methods := a.methods.register handle } where
  valid other ho := by
    rcases Numbering.mem_register.1 ho with ho | rfl
    · exact h.valid other ho
    · exact hm
  bound := by
    show unit.methods.size ≤ n + (a.methods.register handle).size
    rw [Numbering.size_register hn]
    have := h.bound
    omega
  classes := h.classes

theorem foldlM_isOk {classes : Numbering ClassHandle} {n : Nat}
    (hv : ∀ a use, unit.Ready classes n a → unit.ValidUse classes use →
      ∃ b, unit.visit debug n a use = .ok b) (uses : List Use) :
    ∀ a, unit.Ready classes n a → (∀ use ∈ uses, unit.ValidUse classes use) →
      ∃ b, uses.foldlM (unit.visit debug n) a = .ok b := by
  induction uses with
  | nil => exact fun a _ _ => ⟨a, rfl⟩
  | cons use uses ih =>
    intro a ha hu
    rw [List.forall_mem_cons] at hu
    obtain ⟨b, hb⟩ := hv a use ha hu.1
    obtain ⟨c, hc⟩ := ih b (ha.visits (visit_spec n a use b hb).1) hu.2
    refine ⟨c, ?_⟩
    rw [List.foldlM_cons, hb]
    exact hc

/-- **A visit succeeds if all that it can meet is valid.** -/
theorem visit_isOk {classes : Numbering ClassHandle} (hmethods : unit.ValidMethods debug classes) :
    ∀ n a use, unit.Ready classes n a → unit.ValidUse classes use →
      ∃ b, unit.visit debug n a use = .ok b := by
  intro n
  induction n using Nat.strong_induction_on with
  | _ n ih =>
    intro a use ha hu
    cases use with
    | value | name | multiname => cases n <;> exact ⟨_, rfl⟩
    | instructionClass handle =>
      exact ⟨a, (visit_class_eq_ok (Or.inl rfl)).2 ⟨ha.classes ▸ hu, rfl⟩⟩
    | traitClass handle =>
      exact ⟨a, (visit_class_eq_ok (Or.inr rfl)).2 ⟨ha.classes ▸ hu, rfl⟩⟩
    | method handle =>
      by_cases hm : handle ∈ a.methods
      · exact ⟨a, visit_of_mem hm⟩
      cases n with
      | zero => exact absurd (ha.mem_methods hu) hm
      | succ n =>
        obtain ⟨method, hmethod⟩ := Option.isSome_iff_exists.1 hu
        obtain ⟨uses, huses, hvalid⟩ := hmethods handle method hmethod
        obtain ⟨b, hb⟩ := foldlM_isOk (ih n (Nat.lt_succ_self n)) uses _ (ha.register hu hm) hvalid
        exact ⟨b, (visit_method_eq_ok hm).2 ⟨n, method, uses, rfl, hmethod, huses, hb⟩⟩

/-! ## The references of a unit -/

/-- **All that the unit refers to has an index.** -/
theorem index_spec {order : List ClassHandle} (h : unit.index debug order = .ok a) :
    a.Closed ∧ a.classes = .ofList order ∧ (∀ use ∈ unit.uses order, a.Covers use) ∧
      ∀ handle ∈ a.methods, unit.Complete debug a handle := by
  obtain ⟨hv, hc⟩ := visits_foldlM (visit_spec _) _ _ _ h
  exact ⟨hv.closed (Indexing.closed_initial _), hv.classes, hc, fun handle hm =>
    hv.complete handle hm (Numbering.not_mem_empty _)⟩

theorem validUse_of_covers {classes : Numbering ClassHandle} (hclasses : a.classes = classes)
    (hm : ∀ handle ∈ a.methods, unit.Complete debug a handle) {use : Use} (h : a.Covers use) :
    unit.ValidUse classes use := by
  cases use with
  | value | name | multiname => trivial
  | instructionClass | traitClass => exact hclasses ▸ h
  | method handle =>
    obtain ⟨method, -, hmethod, -⟩ := hm handle h
    rw [ValidUse, hmethod]
    rfl

/-- **The references of a unit can be given indices exactly when the handles among them are
    valid.** -/
theorem index_isOk {order : List ClassHandle}
    (hall : ∀ handle, (unit.method? handle).isSome → handle ∈ unit.methodOrder) :
    (∃ a, unit.index debug order = .ok a) ↔
      (∀ use ∈ unit.uses order, unit.ValidUse (.ofList order) use) ∧
        unit.ValidMethods debug (.ofList order) := by
  constructor
  · rintro ⟨a, ha⟩
    obtain ⟨-, hclasses, hc, hm⟩ := index_spec ha
    refine ⟨fun use hu => validUse_of_covers hclasses hm (hc use hu), fun handle method hh => ?_⟩
    have hcover : a.Covers (.method handle) := by
      refine hc _ ?_
      simp only [uses, List.mem_append, List.mem_map]
      exact Or.inl (Or.inr ⟨handle, hall handle (by rw [hh]; rfl), rfl⟩)
    obtain ⟨method', uses, hh', hu, hcovers⟩ := hm handle hcover
    cases hh.symm.trans hh'
    exact ⟨uses, hu, fun use hmem => validUse_of_covers hclasses hm (hcovers use hmem)⟩
  · rintro ⟨hu, hm⟩
    refine foldlM_isOk (visit_isOk hm _) _ _ ⟨?_, ?_, rfl⟩ hu
    · exact fun handle hmem => absurd hmem (Numbering.not_mem_empty _)
    · exact Nat.le_add_right _ _

end

end CodeUnit

end ActionBytecode
