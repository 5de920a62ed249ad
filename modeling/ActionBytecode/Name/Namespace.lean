/-
  ActionBytecode — namespaces.

  A namespace is a kind and a name.  Private namespaces are distinct even when their names are
  the same, so each carries a number that tells it apart; the number is zero for every other
  kind (`Namespace.privateId_eq_zero`).  Numbers come from the indices of a table and from a counter
  of 32 bits, so they are below 2^32.

  Namespaces are ordered by kind, then by name, then by that number.  The order is total
  (`Namespace.compare_eq_iff_eq` and the instances below), which is what makes the sorted members
  of a namespace set canonical.
-/
import ActionBytecode.Text.Quoted

namespace ActionBytecode

/-- The name at index 0 of the string table.  In a name position it stands for any name. -/
def anyName : String := "*"

/-- What a namespace opens its names to. -/
inductive NamespaceKind where
  | ordinary
  | package
  | packageInternal
  | protectedMembers
  | explicit
  | staticProtected
  | privateMembers
  deriving DecidableEq, Repr

namespace NamespaceKind

/-- Every kind, in ascending order. -/
def all : List NamespaceKind :=
  [.ordinary, .package, .packageInternal, .protectedMembers, .explicit, .staticProtected,
    .privateMembers]

/-- The tag of a kind on the wire. -/
def byte : NamespaceKind → UInt8
  | ordinary => 0x08
  | package => 0x16
  | packageInternal => 0x17
  | protectedMembers => 0x18
  | explicit => 0x19
  | staticProtected => 0x1a
  | privateMembers => 0x05

/-- The kind with a given tag. -/
def ofByte? (b : UInt8) : Option NamespaceKind :=
  all.find? (·.byte == b)

/-- The kind in listings. -/
def label : NamespaceKind → String
  | ordinary => "Namespace"
  | package => "PackageNamespace"
  | packageInternal => "PackageInternalNs"
  | protectedMembers => "ProtectedNamespace"
  | explicit => "ExplicitNamespace"
  | staticProtected => "StaticProtectedNs"
  | privateMembers => "PrivateNamespace"

/-- The place of a kind in the order of namespaces. -/
def rank : NamespaceKind → Nat
  | ordinary => 0
  | package => 1
  | packageInternal => 2
  | protectedMembers => 3
  | explicit => 4
  | staticProtected => 5
  | privateMembers => 6

theorem rank_injective {a b : NamespaceKind} (h : a.rank = b.rank) : a = b := by
  cases a <;> cases b <;> first | rfl | cases h

@[simp] theorem ofByte?_byte (kind : NamespaceKind) : ofByte? kind.byte = some kind := by
  cases kind <;> rfl

end NamespaceKind

/-- A kind and a name; private namespaces also carry the number that tells them apart. -/
@[ext] structure Namespace where
  kind : NamespaceKind
  name : String
  privateId : Nat
  privateId_eq_zero : kind ≠ .privateMembers → privateId = 0
  deriving DecidableEq

namespace Namespace

/-- The namespace of a kind and a name; `id` matters only to private ones. -/
def ofKind (kind : NamespaceKind) (name : String) (id : Nat) : Namespace where
  kind := kind
  name := name
  privateId := if kind = .privateMembers then id else 0
  privateId_eq_zero h := by simp [h]

/-- The namespace at index 0 of the namespace table. -/
def global : Namespace := ofKind .ordinary anyName 0

instance : Inhabited Namespace := ⟨global⟩

/-- The namespace in listings. -/
def text (ns : Namespace) : String :=
  let name := Quoted.quote ns.name
  match ns.kind with
  | .privateMembers => s!"{ns.kind.label}({name}#{ns.privateId})"
  | kind => s!"{kind.label}({name})"

/-! ## The order of namespaces -/

/-- By kind, then by name, then by the number of a private namespace. -/
def order : Namespace → Namespace → Ordering :=
  compareLex (compareOn fun ns => ns.kind.rank)
    (compareLex (compareOn fun ns => ns.name) (compareOn fun ns => ns.privateId))

instance : Ord Namespace := ⟨order⟩

instance : Std.TransOrd Namespace :=
  inferInstanceAs (Std.TransCmp (compareLex (compareOn fun ns : Namespace => ns.kind.rank)
    (compareLex (compareOn fun ns => ns.name) (compareOn fun ns => ns.privateId))))

theorem compare_def (a b : Namespace) : compare a b =
    (compare a.kind.rank b.kind.rank).then
      ((compare a.name b.name).then (compare a.privateId b.privateId)) := rfl

/-- **The order of namespaces tells any two apart.** -/
theorem compare_eq_iff_eq {a b : Namespace} : compare a b = .eq ↔ a = b := by
  constructor
  · intro h
    rw [compare_def] at h
    simp only [Ordering.then_eq_eq, Std.LawfulEqOrd.compare_eq_iff_eq] at h
    exact Namespace.ext (NamespaceKind.rank_injective h.1) h.2.1 h.2.2
  · rintro rfl
    exact Std.ReflOrd.compare_self

end Namespace

end ActionBytecode
