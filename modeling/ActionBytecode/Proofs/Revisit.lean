/-
  ActionBytecode — visiting a unit a second time.

  A reference that has its index is passed over.  So what was visited can be visited again at any
  later point without effect, and the methods and classes of a unit can be put in the order of
  their indices.

  `CodeUnit.index_reordered`: a unit whose methods and classes stand in the order of their indices
  gets the same indices again.
-/
import ActionBytecode.Proofs.Visit

namespace ActionBytecode

/-! ## Numberings -/

namespace Numbering

variable {α : Type} [DecidableEq α]

theorem values_ofList {xs : List α} (h : xs.Nodup) : (ofList xs).values = xs := by
  induction xs using List.reverseRecOn with
  | nil => rfl
  | append_singleton xs x ih =>
    obtain ⟨hxs, -, hx⟩ := List.nodup_append.1 h
    have hn : x ∉ (ofList xs).values := fun hm =>
      hx x (mem_ofList.1 hm) x (List.mem_singleton_self x) rfl
    rw [ofList_append_singleton, values_register, if_neg hn, ih hxs]

/-- Numbering the values of a numbering gives it back. -/
theorem ofList_values (a : Numbering α) : ofList a.values = a :=
  Numbering.ext (values_ofList a.nodup)

end Numbering

/-! ## What has its index -/

namespace Indexing

variable {a : Indexing}

theorem addLiteral_of_mem {s : String} (h : s ∈ a.strings) : a.addLiteral s = a := by
  rw [addLiteral, Numbering.register_of_mem h]

theorem addName_of_covers {name : Option String} (h : a.CoversName name) : a.addName name = a := by
  rw [addName]
  cases hs : spelled? name with
  | none => rfl
  | some s => exact addLiteral_of_mem (h s hs)

theorem addNamespace_of_mem {ns : Namespace} (h : ns ∈ a.namespaces) : a.addNamespace ns = a := by
  rw [addNamespace, if_pos h]

theorem addMultinameEntry_of_mem {name : Multiname} (h : name ∈ a.multinames) :
    a.addMultinameEntry name = a := by
  rw [addMultinameEntry, Numbering.register_of_mem h]

theorem addMultiname_of_mem {name : Multiname} (h : name ∈ a.multinames) :
    a.addMultiname name = a := by
  cases name with
  | runtime attr => rw [addMultiname, addMultinameEntry_of_mem h]
  | _ => rw [addMultiname, if_pos h]

theorem addMultinames_of_subset {names : List Multiname} (h : ∀ name ∈ names, name ∈ a.multinames) :
    a.addMultinames names = a := by
  induction names with
  | nil => rfl
  | cons name names ih =>
    obtain ⟨hname, hnames⟩ := List.forall_mem_cons.1 h
    rw [addMultinames, addMultiname_of_mem hname, ih hnames]

theorem addValue_of_covers {value : DefaultValue} (h : a.CoversValue value) :
    a.addValue value = a := by
  cases value with
  | int value => rw [addValue, addInt, Numbering.register_of_mem h]
  | uint value => rw [addValue, addUint, Numbering.register_of_mem h]
  | double value => rw [addValue, addDouble, Numbering.register_of_mem h]
  | text value => exact addLiteral_of_mem h
  | nspace ns => exact addNamespace_of_mem h
  | truth | null | undefined => rfl

end Indexing

namespace CodeUnit

variable {unit : CodeUnit} {debug : Bool} {n : Nat} {a b c : Indexing}

/-- **A reference that has its index is passed over.** -/
theorem visit_of_covers {use : Use} (h : a.Covers use) : unit.visit debug n a use = .ok a := by
  cases use with
  | value value => rw [visit_value, Indexing.addValue_of_covers h]
  | name name => rw [visit_name, Indexing.addName_of_covers h]
  | multiname name => rw [visit_multiname, Indexing.addMultiname_of_mem h]
  | method handle => exact visit_of_mem h
  | instructionClass handle => exact (visit_class_eq_ok (.inl rfl)).2 ⟨h, rfl⟩
  | traitClass handle => exact (visit_class_eq_ok (.inr rfl)).2 ⟨h, rfl⟩

theorem foldlM_of_covers {uses : List Use} (h : ∀ use ∈ uses, a.Covers use) :
    uses.foldlM (unit.visit debug n) a = .ok a := by
  induction uses with
  | nil => rfl
  | cons use uses ih =>
    obtain ⟨hu, hus⟩ := List.forall_mem_cons.1 h
    rw [List.foldlM_cons, visit_of_covers hu]
    exact ih hus

/-! ## Repetitions -/

section
variable {α : Type} {uses : α → List Use}

/-- What is listed more than once can be visited once only. -/
theorem foldlM_ofList [DecidableEq α] {xs : List α} :
    ∀ {b : Indexing}, (xs.flatMap uses).foldlM (unit.visit debug n) a = .ok b →
      ((Numbering.ofList xs).values.flatMap uses).foldlM (unit.visit debug n) a = .ok b := by
  induction xs using List.reverseRecOn with
  | nil => exact fun h => h
  | append_singleton xs x ih =>
    intro c h
    rw [List.flatMap_append, List.foldlM_append, bind_eq_ok] at h
    obtain ⟨b, hb, hc⟩ := h
    rw [Numbering.ofList_append_singleton, Numbering.values_register]
    by_cases hx : x ∈ (Numbering.ofList xs).values
    -- the second time all that it refers to has its index
    · have hcovers : ∀ use ∈ [x].flatMap uses, b.Covers use := fun use hu =>
        (visits_foldlM (visit_spec n) _ a b hb).2 use
          (List.mem_flatMap.2 ⟨x, Numbering.mem_ofList.1 hx, by simpa using hu⟩)
      rw [foldlM_of_covers hcovers] at hc
      cases hc
      rw [if_pos hx, ih hb]
    · rw [if_neg hx, List.flatMap_append, List.foldlM_append, ih hb]
      exact hc

end

/-! ## Methods in the order of their indices -/

theorem prefix_append_drop {a b : Numbering MethodHandle} (h : a.Extends b) :
    b.values = a.values ++ b.values.drop a.size := by
  obtain ⟨more, hmore⟩ := h
  rw [← hmore, Numbering.size, List.drop_left]

theorem covers_methods (handles : List MethodHandle) (h : ∀ handle ∈ handles, handle ∈ a.methods) :
    ∀ use ∈ handles.map Use.method, a.Covers use := by
  intro use hu
  obtain ⟨handle, hm, rfl⟩ := List.mem_map.1 hu
  exact h handle hm

/-- Visiting a method that has no index yet gives it the next one. -/
theorem methods_of_visit {handle : MethodHandle} (hn : handle ∉ a.methods)
    (h : unit.visit debug n a (.method handle) = .ok b) :
    ∃ more, b.methods.values = a.methods.values ++ handle :: more := by
  obtain ⟨m, method, uses, -, -, -, hf⟩ := (visit_method_eq_ok hn).1 h
  obtain ⟨more, hmore⟩ := (visits_foldlM (visit_spec m) uses _ b hf).1.methods
  have hn' : handle ∉ a.methods.values := hn
  rw [Numbering.values_register, if_neg hn', List.append_assoc] at hmore
  exact ⟨more, hmore.symm⟩

/-- **The methods that got an index can be visited in the order of their indices.**  By induction on
    the handles: each of them has its index already, or gets the next one and is followed by the
    methods that are met below it. -/
theorem foldlM_new_methods (handles : List MethodHandle) : ∀ {a b : Indexing},
    (handles.map Use.method).foldlM (unit.visit debug n) a = .ok b →
    ((b.methods.values.drop a.methods.size).map Use.method).foldlM (unit.visit debug n) a =
      .ok b := by
  induction handles with
  | nil =>
    intro a b h
    cases h
    rw [Numbering.size, List.drop_length]
    rfl
  | cons handle handles ih =>
    intro a c h
    rw [List.map_cons, List.foldlM_cons, bind_eq_ok] at h
    obtain ⟨b, hb, hc⟩ := h
    by_cases hm : handle ∈ a.methods
    · rw [visit_of_mem hm] at hb
      cases hb
      exact ih hc
    · obtain ⟨more, hmore⟩ := methods_of_visit hm hb
      have hx := (visits_foldlM (visit_spec n) _ b c hc).1.methods
      have hdrop : c.methods.values.drop a.methods.size =
          handle :: (more ++ c.methods.values.drop b.methods.size) := by
        have hvalues := prefix_append_drop hx
        generalize c.methods.values.drop b.methods.size = rest at hvalues ⊢
        rw [hvalues, hmore, List.append_assoc, Numbering.size, List.drop_left, List.cons_append]
      -- the methods met below the handle come next in the order, and are passed over
      have hcovers : ∀ use ∈ more.map Use.method, b.Covers use :=
        covers_methods more fun handle hh => by simp [Numbering.mem_def, hmore, hh]
      rw [hdrop, List.map_cons, List.foldlM_cons, hb, List.map_append]
      show (more.map Use.method ++ _).foldlM (unit.visit debug n) b = .ok c
      rw [List.foldlM_append, foldlM_of_covers hcovers]
      exact ih hc

theorem foldlM_methods {handles : List MethodHandle}
    (h : (handles.map Use.method).foldlM (unit.visit debug n) a = .ok b) :
    (b.methods.values.map Use.method).foldlM (unit.visit debug n) a = .ok b := by
  have hx := (visits_foldlM (visit_spec n) _ a b h).1.methods
  rw [prefix_append_drop hx, List.map_append, List.foldlM_append,
    foldlM_of_covers (covers_methods _ fun _ hm => hm)]
  exact foldlM_new_methods handles h

/-! ## Units -/

/-- Names refer to no methods. -/
theorem methods_of_names {uses : List Use} : ∀ {a b : Indexing},
    (∀ use ∈ uses, ∃ name, use = .name name) → uses.foldlM (unit.visit debug n) a = .ok b →
    b.methods = a.methods := by
  induction uses with
  | nil =>
    intro a b _ h
    cases h
    rfl
  | cons use uses ih =>
    intro a c hn h
    obtain ⟨⟨name, rfl⟩, hns⟩ := List.forall_mem_cons.1 hn
    rw [List.foldlM_cons, visit_name] at h
    exact (ih hns h).trans (Indexing.enlarges_addName a name).handles

theorem name_of_metadata {entry : Metadata} {use : Use} (h : use ∈ entry.uses) :
    ∃ name, use = .name name := by
  rcases List.mem_cons.1 h with rfl | h
  · exact ⟨_, rfl⟩
  · obtain ⟨⟨key, value⟩, -, h⟩ := List.mem_flatMap.1 h
    rcases List.mem_pair.1 h with rfl | rfl <;> exact ⟨_, rfl⟩

/-- A visit follows handles, not the order of the wire. -/
theorem visit_with_methodOrder (order : List MethodHandle) : ∀ n,
    { unit with methodOrder := order }.visit debug n = unit.visit debug n := by
  intro n
  induction n with
  | zero =>
    funext a use
    rw [visit.eq_def, visit.eq_def]
  | succ n ih =>
    funext a use
    rw [visit.eq_def, visit.eq_def]
    cases use with
    | method handle =>
      dsimp only [method?]
      cases unit.methods[handle.index]? with
      | none => rfl
      | some method =>
        dsimp only
        rw [ih]
    | _ => rfl

/-- The references of the classes in an order. -/
def classUses (unit : CodeUnit) (handle : ClassHandle) : List Use :=
  (unit.class? handle).toList.flatMap ClassDefinition.uses

theorem flatMap_classUses (order : List ClassHandle) :
    (order.filterMap unit.class?).flatMap ClassDefinition.uses = order.flatMap unit.classUses := by
  induction order with
  | nil => rfl
  | cons handle order ih =>
    rw [List.filterMap_cons, List.flatMap_cons, ← ih, classUses]
    cases unit.class? handle with
    | none => rfl
    | some cls => simp

/-- **A unit whose methods and classes stand in the order of their indices gets the same indices
    again.** -/
theorem index_reordered {order : List ClassHandle} (h : unit.index debug order = .ok a) :
    { unit with methodOrder := a.methods.values }.index debug a.classes.values = .ok a := by
  have hclasses : a.classes = .ofList order := (index_spec h).2.1
  rw [index, uses, List.foldlM_append, bind_eq_ok] at h
  obtain ⟨c, hc, ha⟩ := h
  rw [List.foldlM_append, bind_eq_ok] at hc
  obtain ⟨b, hb, hc⟩ := hc
  rw [List.foldlM_append, bind_eq_ok] at hb
  obtain ⟨first, hfirst, hb⟩ := hb
  have hmethods : a.methods = c.methods := by
    refine methods_of_names (fun use hu => ?_) ha
    obtain ⟨entry, -, hu⟩ := List.mem_flatMap.1 hu
    exact name_of_metadata hu
  rw [index, visit_with_methodOrder, uses, Numbering.ofList_values, hclasses]
  rw [flatMap_classUses] at hfirst ⊢
  have hfirst' := foldlM_ofList hfirst
  have hc' := foldlM_methods hc
  rw [← hmethods] at hc'
  rw [List.foldlM_append, bind_eq_ok]
  refine ⟨c, ?_, ha⟩
  rw [List.foldlM_append, bind_eq_ok]
  refine ⟨b, ?_, hc'⟩
  rw [List.foldlM_append, bind_eq_ok]
  exact ⟨first, hfirst', hb⟩

end CodeUnit

end ActionBytecode
