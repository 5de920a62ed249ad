/-
  ActionBytecode — what readers are made of.

  Only two readers touch the bytes.  The others are made of them by sequence and choice, and where
  they fail by themselves, they say that the bytes are malformed (`Reader.Composed`).  All readers
  of a unit's sections are of this kind (`composed_sections`), so what holds of the two, and is
  passed on by a sequence, holds of a unit.

  The readers of code are not of this kind: they know of instructions that are not modelled, and
  ask how many bytes are left.
-/
import ActionBytecode.CodeUnit.Decoding
import ActionBytecode.Proofs.Outcome
import ActionBytecode.Proofs.Resolution

namespace ActionBytecode

/-- Multinames that cannot be resolved are the fault of the bytes. -/
theorem kind_of_resolveMultinames {entries : Array MultinameEntry} {fault : Fault}
    (h : resolveMultinames entries = .error fault) : fault.kind = .parse := by
  obtain ⟨offset, cause, rfl, -⟩ := Resolution.blames_of_resolveMultinames h
  rfl

/-! ## Sequence and choice -/

namespace Reader

/-- The reader is made of the two that touch the bytes, and blames the bytes when it fails. -/
inductive Composed : {α : Type} → Reader α → Prop
  | pure {α : Type} (a : α) : Composed (pure a)
  | throw {α : Type} {fault : Fault} (h : fault.kind = .parse) : Composed (throw fault : Reader α)
  | offset : Composed offset
  | u8 : Composed u8
  | bytes (n : Nat) : Composed (bytes n)
  | bind {α β : Type} {read : Reader α} {next : α → Reader β} (h : Composed read)
    (h' : ∀ a, Composed (next a)) : Composed (read >>= next)

section
variable {α β : Type} {read read' : Reader α}

theorem composed_malformed (offset : Nat) (cause : Malformation) :
    Composed (malformed offset cause : Reader α) :=
  .throw rfl

theorem composed_require (value : Option α) (offset : Nat) (cause : Malformation) :
    Composed (require value offset cause) := by
  cases value with
  | none => exact composed_malformed offset cause
  | some a => exact .pure a

theorem composed_ofExcept {x : Except Fault α}
    (h : ∀ fault, x = .error fault → fault.kind = .parse) : Composed (ofExcept x) := by
  cases x with
  | error fault => exact .throw (h fault rfl)
  | ok a => exact .pure a

theorem Composed.ite {c : Prop} [Decidable c] (h : Composed read) (h' : Composed read') :
    Composed (if c then read else read') := by
  by_cases hc : c
  · rwa [if_pos hc]
  · rwa [if_neg hc]

/-- A step that is one of two. -/
theorem Composed.bind_ite {c : Prop} [Decidable c] {next : α → Reader β} (h : Composed read)
    (h' : Composed read') (hn : ∀ a, Composed (next a)) :
    Composed (if c then read >>= next else read' >>= next) :=
  (h.bind hn).ite (h'.bind hn)

/-- A test that has to fail for reading to go on. -/
theorem composed_refuse {c : Prop} [Decidable c] {next : Unit → Reader α} {offset : Nat}
    {cause : Malformation} (h : Composed (next ())) :
    Composed (if c then malformed offset cause >>= next else next ()) :=
  Composed.ite ((composed_malformed _ _).bind fun _ => h) h

theorem composed_timesOnto (h : Composed read) :
    ∀ n (done : List α), Composed (timesOnto read n done)
  | 0, _ => .pure _
  | n + 1, done => h.bind fun a => composed_timesOnto h n (a :: done)

theorem Composed.times (h : Composed read) (n : Nat) : Composed (times n read) :=
  composed_timesOnto h n []

theorem Composed.mapM {γ : Type} {read : γ → Reader α} (h : ∀ x, Composed (read x)) (xs : List γ) :
    Composed (xs.mapM read) := by
  induction xs with
  | nil => exact .pure []
  | cons x xs ih =>
    rw [List.mapM_cons]
    exact (h x).bind fun _ => ih.bind fun _ => .pure _

end

/-! ## Numbers and text -/

theorem composed_packedGroups : ∀ groups, Composed (packedGroups groups)
  | 0 => .pure 0
  | groups + 1 => Composed.u8.bind fun _ => Composed.ite (.pure _)
    ((composed_packedGroups groups).bind fun _ => .pure _)

theorem composed_u32 : Composed u32 := (composed_packedGroups 5).bind fun _ => .pure _

theorem composed_s32 : Composed s32 := composed_u32.bind fun _ => .pure _

theorem composed_u30 : Composed u30 :=
  Composed.offset.bind fun _ => composed_u32.bind fun _ =>
    Composed.ite (.pure _) (composed_malformed _ _)

theorem composed_index : Composed index := composed_u30.bind fun _ => .pure _

theorem composed_u16 : Composed u16 := (Composed.bytes 2).bind fun _ => .pure _

theorem composed_d64 : Composed d64 := (Composed.bytes 8).bind fun _ => .pure _

theorem composed_text : Composed text := by
  refine Composed.offset.bind fun start => composed_index.bind fun length =>
    (Composed.bytes length).bind fun octets => ?_
  cases Utf8.decode octets with
  | ok s => exact .pure s
  | error fault => exact composed_malformed _ _

theorem Composed.list {α : Type} {read : Reader α} (h : Composed read) : Composed (list read) :=
  composed_index.bind h.times

/-! ## References and constants -/

section
variable {α : Type} {find : Nat → Option α}

theorem composed_entry (table : Table) : Composed (entry table find) :=
  Composed.offset.bind fun _ => composed_index.bind fun _ => composed_require _ _ _

theorem composed_entryFrom (start : Nat) (table : Table) : Composed (entryFrom start table find) :=
  composed_index.bind fun _ => composed_require _ _ _

end

theorem Composed.table {α : Type} {read : Reader α} (h : Composed read) : Composed (table read) :=
  composed_index.bind fun count => h.times (count - 1)

theorem composed_namespaceEntry (strings : Array String) : Composed (namespaceEntry strings) :=
  Composed.offset.bind fun _ => Composed.u8.bind fun _ => (composed_require _ _ _).bind fun _ =>
    (composed_entry _).bind fun _ => .pure _

theorem composed_namespaceSet (namespaces : Array Namespace) : Composed (namespaceSet namespaces) :=
  (composed_entry _).list.bind fun _ => .pure _

theorem composed_multinameEntry (strings : Array String) (namespaces : Array Namespace)
    (sets : Array NamespaceSet) : Composed (multinameEntry strings namespaces sets) := by
  rw [multinameEntry_eq]
  refine Composed.offset.bind fun start => Composed.u8.bind fun tag =>
    (composed_require _ _ _).bind fun kind => ?_
  cases kind with
  | qName | qNameA =>
    exact (composed_entryFrom _ _).bind fun _ => (composed_entry _).bind fun _ => .pure _
  | rtqName | rtqNameA => exact (composed_entry _).bind fun _ => .pure _
  | rtqNameL | rtqNameLA => exact .pure _
  | multiname | multinameA =>
    exact (composed_entry _).bind fun _ => (composed_entryFrom _ _).bind fun _ => .pure _
  | multinameL | multinameLA => exact (composed_entryFrom _ _).bind fun _ => .pure _
  | typeName => exact composed_index.bind fun _ => composed_index.list.bind fun _ => .pure _

theorem composed_multinames (strings : Array String) (namespaces : Array Namespace)
    (sets : Array NamespaceSet) : Composed (multinames strings namespaces sets) :=
  (composed_multinameEntry _ _ _).table.bind fun _ =>
    composed_ofExcept fun _ => kind_of_resolveMultinames

theorem composed_pool : Composed pool :=
  composed_s32.table.bind fun _ => composed_u32.table.bind fun _ => composed_d64.table.bind fun _ =>
    composed_text.table.bind fun _ => (composed_namespaceEntry _).table.bind fun _ =>
      (composed_namespaceSet _).table.bind fun _ =>
        (composed_multinames _ _ _).bind fun _ => .pure _

/-! ## Declarations -/

section
variable (tables : Tables)

theorem composed_valueOf (start i : Nat) (tag : UInt8) : Composed (valueOf tables start i tag) := by
  refine (composed_require _ _ _).bind fun kind => ?_
  cases kind with
  | int | uint | double | text | nspace =>
    exact (composed_require _ _ _).bind fun _ => .pure _
  | truth | null | undefined => exact .pure _

theorem composed_value : Composed (value tables) :=
  Composed.offset.bind fun _ => composed_index.bind fun _ => Composed.u8.bind fun _ =>
    composed_valueOf tables _ _ _

theorem composed_value? : Composed (value? tables) :=
  Composed.offset.bind fun _ => composed_index.bind fun _ => Composed.ite (.pure _)
    (Composed.u8.bind fun _ => (composed_valueOf tables _ _ _).bind fun _ => .pure _)

theorem composed_member (kind : MemberKind) : Composed (member tables kind) := by
  cases kind with
  | slot kind =>
    exact composed_u30.bind fun _ => (composed_entry _).bind fun _ =>
      (composed_value? tables).bind fun _ => .pure _
  | access | classBinding | function =>
    exact composed_u30.bind fun _ => (composed_entry _).bind fun _ => .pure _

theorem composed_traitEntry : Composed (traitEntry tables) :=
  (composed_entry _).bind fun _ => Composed.offset.bind fun _ => Composed.u8.bind fun _ =>
    (composed_require _ _ _).bind fun kind => (composed_member tables kind).bind fun _ =>
      Composed.bind_ite (composed_entry _).list (.pure _) fun _ => .pure _

theorem composed_traits : Composed (traits tables) := (composed_traitEntry tables).list

theorem composed_optionalValues (parameters : Nat) : Composed (optionalValues tables parameters) :=
  Composed.offset.bind fun _ => composed_index.bind fun count =>
    composed_refuse ((composed_value tables).times count)

theorem composed_signature : Composed (signature tables) :=
  composed_index.bind fun count => (composed_entry _).bind fun _ =>
    ((composed_entry _).times count).bind fun _ => (composed_entry _).bind fun _ =>
      Composed.u8.bind fun _ =>
        Composed.bind_ite (composed_optionalValues tables count) (.pure _) fun _ =>
          Composed.bind_ite ((composed_entry _).times count) (.pure _) fun _ => .pure _

theorem composed_handler : Composed (handler tables) :=
  composed_u30.bind fun _ => composed_u30.bind fun _ => composed_u30.bind fun _ =>
    (composed_entry _).bind fun _ => (composed_entry _).bind fun _ => .pure _

theorem composed_body : Composed (body tables) :=
  composed_u30.bind fun _ => composed_u30.bind fun _ => composed_u30.bind fun _ =>
    composed_u30.bind fun _ => composed_index.bind fun length => (Composed.bytes length).bind fun _ =>
      (composed_handler tables).list.bind fun _ => (composed_traits tables).bind fun _ =>
        Composed.pure _

theorem composed_instanceSide : Composed (instanceSide tables) :=
  (composed_entry _).bind fun _ => (composed_entry _).bind fun _ => Composed.u8.bind fun _ =>
    Composed.bind_ite ((composed_entry _).bind fun _ => .pure _) (.pure _) fun _ =>
      (composed_entry _).list.bind fun _ => (composed_entry _).bind fun _ =>
        (composed_traits tables).bind fun _ => .pure _

theorem composed_staticSide (cls : ClassDefinition) : Composed (staticSide tables cls) :=
  (composed_entry _).bind fun _ => (composed_traits tables).bind fun _ => .pure _

theorem composed_script : Composed (script tables) :=
  (composed_entry _).bind fun _ => (composed_traits tables).bind fun _ => .pure _

theorem composed_metadata : Composed (metadata tables) :=
  (composed_entry _).bind fun _ => Composed.bind (Composed.list <| (composed_entry _).bind fun _ =>
    (composed_entry _).bind fun _ => .pure _) fun _ => .pure _

/-! ## Units -/

theorem composed_bodies : ∀ count methods, Composed (bodies tables count methods)
  | 0, _ => .pure _
  | count + 1, _ => Composed.offset.bind fun _ => (composed_entry _).bind fun _ =>
    (composed_body tables).bind fun _ => composed_refuse (composed_bodies count _)

end

theorem composed_version : Composed version :=
  composed_u16.bind fun _ => composed_u16.bind fun _ => Composed.ite (.throw rfl) (.pure _)

theorem composed_sections : Composed sections :=
  composed_version.bind fun _ => composed_pool.bind fun _ =>
    (composed_signature _).list.bind fun _ => (composed_metadata _).list.bind fun _ =>
      composed_index.bind fun count => ((composed_instanceSide _).times count).bind fun _ =>
        (Composed.mapM (composed_staticSide _) _).bind fun _ =>
          (composed_script _).list.bind fun _ => composed_index.bind fun _ =>
            (composed_bodies _ _ _).bind fun _ => .pure _

end Reader

end ActionBytecode
