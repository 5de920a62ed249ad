/-
  ActionBytecode — the bytes of a renamed unit.

  Things are written by their indices, so a writer writes the same bytes for what is renamed, as
  long as the indices are the same.  The members of a namespace set are an exception: they are
  written in their own order, which a renaming can change (`NamespaceSet.Aligned`).
-/
import ActionBytecode.Proofs.Transport
import ActionBytecode.Layout.Class
import ActionBytecode.Layout.Method
import ActionBytecode.Layout.Pool

namespace ActionBytecode

/-! ## What gives the same -/

section
variable {ε α β γ : Type}

/-- What `x` gives, `y` gives too. -/
def Follows (x y : Except ε α) : Prop := ∀ a, x = .ok a → y = .ok a

theorem Follows.refl (x : Except ε α) : Follows x x := fun _ h => h

theorem Follows.of_eq {x y : Except ε α} (h : x = y) : Follows x y := fun _ hx => h ▸ hx

theorem Follows.bind {x y : Except ε α} {f g : α → Except ε β} (h : Follows x y)
    (h' : ∀ a, Follows (f a) (g a)) : Follows (x >>= f) (y >>= g) := by
  intro b hb
  obtain ⟨a, ha, hb⟩ := bind_eq_ok.1 hb
  exact bind_eq_ok.2 ⟨a, h a ha, h' a b hb⟩

theorem Follows.bind_pure {x y : Except ε α} (h : Follows x y) (f : α → β) :
    Follows (x >>= fun a => pure (f a)) (y >>= fun a => pure (f a)) :=
  h.bind fun _ => .refl _

theorem Follows.map {x y : Except ε α} (h : Follows x y) (f : α → β) :
    Follows (f <$> x) (f <$> y) := by
  intro b hb
  obtain ⟨a, ha, rfl⟩ := map_eq_ok.1 hb
  exact map_eq_ok.2 ⟨a, h a ha, rfl⟩

theorem Follows.bind_ite {c c' : Prop} [Decidable c] [Decidable c'] {x y x' y' : Except ε α}
    {f g : α → Except ε β} (hc : c' ↔ c) (hx : Follows x x') (hy : Follows y y')
    (h : ∀ a, Follows (f a) (g a)) :
    Follows (if c then x >>= f else y >>= f) (if c' then x' >>= g else y' >>= g) := by
  by_cases hp : c
  · rw [if_pos hp, if_pos (hc.2 hp)]
    exact hx.bind h
  · rw [if_neg hp, if_neg fun hp' => hp (hc.1 hp')]
    exact hy.bind h

theorem Follows.mapM_of_forall₂ {f : α → Except ε β} {g : γ → Except ε β} {xs : List α}
    {ys : List γ} (h : List.Forall₂ (fun x y => Follows (f x) (g y)) xs ys) :
    Follows (xs.mapM f) (ys.mapM g) := by
  induction h with
  | nil => exact .refl _
  | cons hx _ ih =>
    rw [List.mapM_cons, List.mapM_cons]
    exact hx.bind fun _ => ih.bind_pure _

theorem Follows.mapM_of_mem {f : α → Except ε β} {g : γ → Except ε β} {image : α → γ}
    {xs : List α} (h : ∀ x ∈ xs, Follows (f x) (g (image x))) :
    Follows (xs.mapM f) ((xs.map image).mapM g) :=
  .mapM_of_forall₂ (List.forall₂_map_right_iff.2 (List.forall₂_same.2 h))

theorem Follows.mapM {f : α → Except ε β} {g : γ → Except ε β} {image : α → γ} {xs : List α}
    (h : ∀ x, Follows (f x) (g (image x))) : Follows (xs.mapM f) ((xs.map image).mapM g) :=
  .mapM_of_mem fun x _ => h x

end

section
variable {α β : Type} {write : α → Except Fault Bytes} {write' : β → Except Fault Bytes}
  {image : α → β}

theorem Follows.list_of_forall₂ {xs : List α} {ys : List β}
    (h : List.Forall₂ (fun x y => Follows (write x) (write' y)) xs ys) :
    Follows (Bytes.list write xs) (Bytes.list write' ys) := by
  rw [Bytes.list, Bytes.list, h.length_eq]
  exact (Follows.refl _).bind fun _ => (Follows.mapM_of_forall₂ h).bind_pure _

theorem Follows.list {xs : List α} (h : ∀ x, Follows (write x) (write' (image x))) :
    Follows (Bytes.list write xs) (Bytes.list write' (xs.map image)) :=
  .list_of_forall₂ (List.forall₂_map_right_iff.2 (List.forall₂_same.2 fun x _ => h x))

theorem Follows.table {xs : List α} (h : ∀ x ∈ xs, Follows (write x) (write' (image x))) :
    Follows (Bytes.table write xs) (Bytes.table write' (xs.map image)) := by
  rw [Bytes.table, Bytes.table, List.length_map, List.isEmpty_map]
  exact (Follows.refl _).bind fun _ => (Follows.mapM_of_mem h).bind_pure _

end

/-- A signature becomes another one, up to what is not written of it. -/
structure Signature.Mirrors (r : Renaming) (s s' : Signature) : Prop where
  name : spelled? s'.name = spelled? s.name
  returnType : s'.returnType = s.returnType.rename r.namespaces
  parameters : s'.parameters = s.parameters.map (·.rename r.namespaces)
  optional : s'.optional = s.optional.map (·.rename r.namespaces)
  parameterNames : s'.parameterNames = s.parameterNames
  flags : s'.flags = s.flags

/-- The members of a set stand in the same order when they are renamed. -/
def NamespaceSet.Aligned (f : Namespace → Namespace) (set : NamespaceSet) : Prop :=
  (set.rename f).members = set.members.map f

namespace Indexing

variable {r : Renaming} (hr : r.Faithful) {a b : Indexing} (h : a.Mirrors r b)

/-! ## Indices -/

section
include h

theorem Mirrors.intIndex (value : Int32) : b.intIndex value = a.intIndex value := by
  rw [Indexing.intIndex, Indexing.intIndex, h.ints]

theorem Mirrors.uintIndex (value : UInt32) : b.uintIndex value = a.uintIndex value := by
  rw [Indexing.uintIndex, Indexing.uintIndex, h.uints]

theorem Mirrors.doubleIndex (value : Double) : b.doubleIndex value = a.doubleIndex value := by
  rw [Indexing.doubleIndex, Indexing.doubleIndex, h.doubles]

theorem Mirrors.literalIndex (value : String) : b.literalIndex value = a.literalIndex value := by
  rw [Indexing.literalIndex, Indexing.literalIndex, h.strings]

theorem Mirrors.nameIndex {name name' : Option String} (hn : spelled? name' = spelled? name) :
    b.nameIndex name' = a.nameIndex name := by
  rw [Indexing.nameIndex, Indexing.nameIndex, hn]
  cases spelled? name with
  | none => rfl
  | some s => exact h.literalIndex s

theorem follows_namespaceIndex (ns : Namespace) :
    Follows (a.namespaceIndex ns) (b.namespaceIndex (r.namespaces ns)) :=
  fun _ hi => h.namespaces.id_eq_ok hi

theorem follows_namespaceSetIndex (set : NamespaceSet) :
    Follows (a.namespaceSetIndex set) (b.namespaceSetIndex (set.rename r.namespaces)) :=
  fun _ hi => h.namespaceSets.id_eq_ok hi

theorem follows_multinameIndex (name : Multiname) :
    Follows (a.multinameIndex name) (b.multinameIndex (name.rename r.namespaces)) :=
  fun _ hi => h.multinames.id_eq_ok hi

theorem follows_methodIndex (handle : MethodHandle) :
    Follows (a.methodIndex handle) (b.methodIndex (r.methods handle)) :=
  fun _ hi => h.methods.id_eq_ok hi

theorem follows_classIndex (handle : ClassHandle) :
    Follows (a.classIndex handle) (b.classIndex (r.classes handle)) :=
  fun _ hi => h.classes.id_eq_ok hi

theorem follows_valueIndex (value : DefaultValue) :
    Follows (a.valueIndex value) (b.valueIndex (value.rename r.namespaces)) := by
  cases value with
  | int value => exact .of_eq (h.intIndex value).symm
  | uint value => exact .of_eq (h.uintIndex value).symm
  | double value => exact .of_eq (h.doubleIndex value).symm
  | text value => exact .of_eq (h.literalIndex value).symm
  | nspace ns => exact follows_namespaceIndex h ns
  | truth | null | undefined => exact .refl _

end

/-! ## Declarations -/

include hr h


theorem follows_valueBytes (value : DefaultValue) :
    Follows (a.valueBytes value) (b.valueBytes (value.rename r.namespaces)) := by
  have hk : (value.rename r.namespaces).kind = value.kind := by
    cases value with
    | nspace ns => exact congrArg ValueKind.nspace (hr.kind ns)
    | _ => rfl
  rw [valueBytes, valueBytes, hk]
  exact (follows_valueIndex h value).bind_pure _

theorem follows_valueBytes? (value : Option DefaultValue) :
    Follows (a.valueBytes? value) (b.valueBytes? (value.map (·.rename r.namespaces))) := by
  cases value with
  | none => exact .refl _
  | some value => exact follows_valueBytes hr h value

theorem follows_memberBytes (member : Member) :
    Follows (a.memberBytes member) (b.memberBytes (member.rename r)) := by
  cases member with
  | slot kind slot type value =>
    exact (follows_multinameIndex h type).bind fun _ => (follows_valueBytes? hr h value).bind_pure _
  | access kind dispatch method => exact (follows_methodIndex h method).bind_pure _
  | classBinding slot handle => exact (follows_classIndex h handle).bind_pure _
  | function slot method => exact (follows_methodIndex h method).bind_pure _

theorem follows_traitBytes (count : Nat) (t : Trait) :
    Follows (a.traitBytes count t) (b.traitBytes count (t.rename r)) := by
  have hk : (t.member.rename r).kind = t.member.kind := by cases t.member <;> rfl
  rw [traitBytes, traitBytes]
  dsimp only [Trait.rename]
  rw [hk]
  exact (follows_multinameIndex h t.name).bind fun _ =>
    (follows_memberBytes hr h t.member).bind fun _ =>
      .bind_ite Iff.rfl (.refl _) (.refl _) fun _ => .refl _

theorem follows_traitsBytes (count : Nat) (traits : List Trait) :
    Follows (a.traitsBytes count traits) (b.traitsBytes count (traits.map (·.rename r))) :=
  Follows.list (follows_traitBytes hr h count)

omit hr in
theorem follows_parameterNameBytes {s s' : Signature} (hs : s.Mirrors r s') :
    Follows (a.parameterNameBytes s) (b.parameterNameBytes s') := by
  have hn (name : String) : b.nameIndex (some name) = a.nameIndex (some name) := h.nameIndex rfl
  intro bytes hw
  rw [parameterNameBytes, hs.parameterNames, hs.parameters, List.length_map]
  rw [parameterNameBytes] at hw
  by_cases he : s.parameterNames.isEmpty
  · rwa [if_pos he] at hw ⊢
  rw [if_neg he] at hw ⊢
  by_cases hl : s.parameterNames.length ≠ s.parameters.length
  · rw [if_pos hl] at hw
    cases hw
  rw [if_neg hl] at hw ⊢
  simp only [hn]
  exact hw

theorem follows_signatureBytes {s s' : Signature} (hs : s.Mirrors r s') :
    Follows (a.signatureBytes s) (b.signatureBytes s') := by
  rw [signatureBytes, signatureBytes, hs.parameters, List.length_map, hs.returnType,
    h.nameIndex hs.name, hs.flags, hs.optional, hs.parameterNames, List.isEmpty_map]
  exact (Follows.refl _).bind fun _ => (follows_multinameIndex h _).bind fun _ =>
    (Follows.mapM (follows_multinameIndex h)).bind fun _ => (Follows.refl _).bind fun _ =>
      .bind_ite Iff.rfl (.refl _) (Follows.list (follows_valueBytes hr h)) fun _ =>
        (follows_parameterNameBytes h hs).bind_pure _

omit hr in
theorem follows_multinames (names : List Multiname) :
    Follows (Bytes.list (fun name => return Bytes.reference (← a.multinameIndex name)) names)
      (Bytes.list (fun name => return Bytes.reference (← b.multinameIndex name))
        (names.map (·.rename r.namespaces))) :=
  Follows.list fun name => (follows_multinameIndex h name).bind_pure _

omit hr in
theorem follows_handlerBytes (handler : Handler UInt32) :
    Follows (a.handlerBytes handler) (b.handlerBytes (handler.rename r)) :=
  (follows_multinameIndex h handler.catchType).bind fun _ =>
    (follows_multinameIndex h handler.variableName).bind_pure _

theorem follows_bodyBytes (count : Nat) (method : MethodHandle) (frame : Frame) (code : Bytes)
    (handlers : List (Handler UInt32)) :
    Follows (a.bodyBytes count method frame code handlers)
      (b.bodyBytes count (r.methods method) (frame.rename r) code (handlers.map (·.rename r))) :=
  (follows_methodIndex h method).bind fun _ => (Follows.refl _).bind fun _ =>
    (Follows.list (follows_handlerBytes h)).bind fun _ =>
      (follows_traitsBytes hr h count frame.traits).bind_pure _

theorem follows_instanceBytes (count : Nat) (cls : ClassDefinition) :
    Follows (a.instanceBytes count cls) (b.instanceBytes count (cls.rename r)) := by
  refine (follows_multinameIndex h cls.name).bind fun _ =>
    (follows_multinameIndex h cls.superName).bind fun _ => ?_
  dsimp only [ClassDefinition.rename]
  rw [Option.isSome_map]
  have hrest (first : Bytes) (flags : UInt8) (name superName : Nat) :=
    (follows_multinames h cls.interfaces).bind fun interfaces =>
      (follows_methodIndex h cls.constructor).bind fun constructor =>
        (follows_traitsBytes hr h count cls.instanceTraits).bind_pure fun traits =>
          Bytes.reference name ++ Bytes.reference superName ++ [flags] ++ first ++ interfaces ++
            Bytes.reference constructor ++ traits
  cases cls.protectedNamespace with
  | none => exact (Follows.refl _).bind fun _ => hrest _ _ _ _
  | some ns => exact ((follows_namespaceIndex h ns).map _).bind fun _ => hrest _ _ _ _

theorem follows_staticBytes (count : Nat) (cls : ClassDefinition) :
    Follows (a.staticBytes count cls) (b.staticBytes count (cls.rename r)) :=
  (follows_methodIndex h cls.staticInit).bind fun _ =>
    (follows_traitsBytes hr h count cls.staticTraits).bind_pure _

theorem follows_classesBytes (count : Nat) (classes : List ClassDefinition) :
    Follows (a.classesBytes count classes) (b.classesBytes count (classes.map (·.rename r))) :=
  (Follows.list (follows_instanceBytes hr h count)).bind fun _ =>
    (Follows.mapM (follows_staticBytes hr h count)).bind_pure _

theorem follows_scriptBytes (count : Nat) (script : Script) :
    Follows (a.scriptBytes count script) (b.scriptBytes count (script.rename r)) :=
  (follows_methodIndex h script.init).bind fun _ =>
    (follows_traitsBytes hr h count script.traits).bind_pure _

omit hr in
theorem follows_metadataItemBytes {item item' : Option String × String}
    (hk : spelled? item'.1 = spelled? item.1) (hv : item'.2 = item.2) :
    Follows (a.metadataItemBytes item) (b.metadataItemBytes item') := by
  rw [metadataItemBytes, metadataItemBytes, h.nameIndex hk, hv, h.nameIndex rfl]
  exact .refl _

omit hr in
theorem follows_metadataBytes {entry entry' : Metadata} (he : entry'.asRead = entry.asRead) :
    Follows (a.metadataBytes entry) (b.metadataBytes entry') := by
  obtain ⟨hname, hitems⟩ := Metadata.mk.inj he
  have hn : entry'.name = entry.name := hname
  rw [metadataBytes, metadataBytes, hn, h.nameIndex rfl]
  refine (Follows.refl _).bind fun _ => (Follows.list_of_forall₂ ?_).bind_pure _
  refine (map_eq_map_iff.1 hitems).flip.imp fun item item' hi => ?_
  have hk : spelled? item'.1 = spelled? item.1 := (Prod.ext_iff.1 hi).1
  have hv : item'.2 = item.2 := (Prod.ext_iff.1 hi).2
  exact follows_metadataItemBytes h hk hv

/-! ## Constants -/

theorem follows_namespaceBytes (ns : Namespace) :
    Follows (a.namespaceBytes ns) (b.namespaceBytes (r.namespaces ns)) := by
  rw [namespaceBytes, namespaceBytes, hr.kind, hr.name, h.nameIndex rfl]
  exact .refl _

omit hr in
theorem follows_multinamePartBytes (name : Multiname) :
    Follows (a.multinamePartBytes name) (b.multinamePartBytes (name.rename r.namespaces)) := by
  have hn (name : String) : Follows (a.nameIndex (some name)) (b.nameIndex (some name)) :=
    .of_eq (h.nameIndex rfl).symm
  cases name with
  | qualified attr ns name =>
    exact (follows_namespaceIndex h ns).bind fun _ => (hn name).bind_pure _
  | runtimeQualified attr name => exact (hn name).bind_pure _
  | runtime attr => exact .refl _
  | ambiguous attr name set =>
    exact (hn name).bind fun _ => (follows_namespaceSetIndex h set).bind_pure _
  | late attr set => exact (follows_namespaceSetIndex h set).bind_pure _
  | applied base params =>
    rw [Multiname.rename, Multiname.renameAll_eq_map]
    exact (follows_multinameIndex h base).bind fun _ =>
      (follows_multinames h params).bind_pure _

omit hr in
theorem follows_multinameBytes (name : Multiname) :
    Follows (a.multinameBytes name) (b.multinameBytes (name.rename r.namespaces)) := by
  have hk : (name.rename r.namespaces).kind = name.kind := by cases name <;> rfl
  rw [multinameBytes, multinameBytes, hk]
  exact (follows_multinamePartBytes h name).bind_pure _

omit hr in
theorem follows_namespaceSetBytes {set : NamespaceSet} (hs : set.Aligned r.namespaces) :
    Follows (a.namespaceSetBytes set) (b.namespaceSetBytes (set.rename r.namespaces)) := by
  rw [namespaceSetBytes, namespaceSetBytes, hs]
  exact Follows.list fun ns => (follows_namespaceIndex h ns).bind_pure _

/-- The pool is written as before if the members of the sets stand in the same order. -/
theorem follows_poolBytes
    (hs : ∀ set ∈ a.namespaceSets.values.tail, set.Aligned r.namespaces) :
    Follows a.poolBytes b.poolBytes := by
  rw [poolBytes, poolBytes, h.ints, h.uints, h.doubles, h.strings, h.namespaces, h.namespaceSets,
    h.multinames, ← List.map_tail, ← List.map_tail, ← List.map_tail]
  exact (Follows.refl _).bind fun _ => (Follows.refl _).bind fun _ => (Follows.refl _).bind fun _ =>
    (Follows.refl _).bind fun _ =>
      (Follows.table fun ns _ => follows_namespaceBytes hr h ns).bind fun _ =>
        (Follows.table fun set hm => follows_namespaceSetBytes h (hs set hm)).bind fun _ =>
          (Follows.table fun name _ => follows_multinameBytes h name).bind_pure _

end Indexing

end ActionBytecode
