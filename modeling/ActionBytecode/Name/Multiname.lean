/-
  ActionBytecode — multinames.

  A multiname is a possibly ambiguous reference to a name: qualified by one namespace, looked up
  in a set of them, with parts that only the running program supplies, or a generic type applied
  to parameters.  Each form but the last has a variant for XML attributes.

  * `MultinameKind` is the tag of a form on the wire, and says which parts the form has;
  * `Multiname` holds exactly the parts of its form;
  * `Multiname.beq_iff`: the comparison of multinames decides equality.
-/
import ActionBytecode.Name.NamespaceSet

namespace ActionBytecode

/-- The forms of a multiname. -/
inductive MultinameKind where
  | qName
  | qNameA
  | rtqName
  | rtqNameA
  | rtqNameL
  | rtqNameLA
  | multiname
  | multinameA
  | multinameL
  | multinameLA
  | typeName
  deriving DecidableEq, Repr

namespace MultinameKind

/-- Every form. -/
def all : List MultinameKind :=
  [.qName, .qNameA, .rtqName, .rtqNameA, .rtqNameL, .rtqNameLA, .multiname, .multinameA,
    .multinameL, .multinameLA, .typeName]

/-- The tag of a form on the wire. -/
def byte : MultinameKind → UInt8
  | qName => 0x07
  | qNameA => 0x0d
  | rtqName => 0x0f
  | rtqNameA => 0x10
  | rtqNameL => 0x11
  | rtqNameLA => 0x12
  | multiname => 0x09
  | multinameA => 0x0e
  | multinameL => 0x1b
  | multinameLA => 0x1c
  | typeName => 0x1d

/-- The form with a given tag. -/
def ofByte? (b : UInt8) : Option MultinameKind :=
  all.find? (·.byte == b)

/-- The form in listings. -/
def label : MultinameKind → String
  | qName => "QName"
  | qNameA => "QNameA"
  | rtqName => "RTQName"
  | rtqNameA => "RTQNameA"
  | rtqNameL => "RTQNameL"
  | rtqNameLA => "RTQNameLA"
  | multiname => "Multiname"
  | multinameA => "MultinameA"
  | multinameL => "MultinameL"
  | multinameLA => "MultinameLA"
  | typeName => "TypeName"

/-- Whether the form names one namespace. -/
def hasNamespace : MultinameKind → Bool
  | qName | qNameA => true
  | _ => false

/-- Whether the form names a set of namespaces. -/
def hasNamespaceSet : MultinameKind → Bool
  | multiname | multinameA | multinameL | multinameLA => true
  | _ => false

/-- Whether the form spells out a name. -/
def hasName : MultinameKind → Bool
  | qName | qNameA | rtqName | rtqNameA | multiname | multinameA => true
  | _ => false

@[simp] theorem ofByte?_byte (kind : MultinameKind) : ofByte? kind.byte = some kind := by
  cases kind <;> rfl

end MultinameKind

/-- A possibly ambiguous reference to a name.  `attr` marks the variant for attributes. -/
inductive Multiname where
  /-- A name in one namespace. -/
  | qualified (attr : Bool) (ns : Namespace) (name : String)
  /-- A name in a namespace that the program supplies. -/
  | runtimeQualified (attr : Bool) (name : String)
  /-- A name and a namespace that the program supplies. -/
  | runtime (attr : Bool)
  /-- A name in any namespace of a set. -/
  | ambiguous (attr : Bool) (name : String) (set : NamespaceSet)
  /-- A name that the program supplies, in any namespace of a set. -/
  | late (attr : Bool) (set : NamespaceSet)
  /-- A generic type applied to parameters. -/
  | applied (base : Multiname) (params : List Multiname)

namespace Multiname

/-- The name at index 0 of the multiname table: any name, in no namespace. -/
def any : Multiname := .ambiguous false anyName .empty

instance : Inhabited Multiname := ⟨any⟩

/-! ## Equality -/

mutual
/-- Compare two multinames. -/
def beq : Multiname → Multiname → Bool
  | .qualified a ns name, .qualified a' ns' name' => a == a' && ns == ns' && name == name'
  | .runtimeQualified a name, .runtimeQualified a' name' => a == a' && name == name'
  | .runtime a, .runtime a' => a == a'
  | .ambiguous a name set, .ambiguous a' name' set' => a == a' && name == name' && set == set'
  | .late a set, .late a' set' => a == a' && set == set'
  | .applied base params, .applied base' params' => beq base base' && beqAll params params'
  | _, _ => false

/-- Compare two lists of multinames. -/
def beqAll : List Multiname → List Multiname → Bool
  | [], [] => true
  | a :: as, b :: bs => beq a b && beqAll as bs
  | _, _ => false
end

mutual
theorem beq_iff : ∀ a b : Multiname, beq a b = true ↔ a = b
  | .qualified .., b => by cases b <;> simp [beq, and_assoc]
  | .runtimeQualified .., b => by cases b <;> simp [beq]
  | .runtime _, b => by cases b <;> simp [beq]
  | .ambiguous .., b => by cases b <;> simp [beq, and_assoc]
  | .late .., b => by cases b <;> simp [beq]
  | .applied base params, b => by
    cases b with
    | applied base' params' => simp [beq, beq_iff base base', beqAll_iff params params']
    | _ => simp [beq]

theorem beqAll_iff : ∀ as bs : List Multiname, beqAll as bs = true ↔ as = bs
  | [], bs => by cases bs <;> simp [beqAll]
  | a :: as, bs => by
    cases bs with
    | nil => simp [beqAll]
    | cons b bs => simp [beqAll, beq_iff a b, beqAll_iff as bs]
end

instance : DecidableEq Multiname := fun a b => decidable_of_iff _ (beq_iff a b)

/-! ## Parts -/

/-- The form of a multiname. -/
def kind : Multiname → MultinameKind
  | .qualified attr .. => if attr then .qNameA else .qName
  | .runtimeQualified attr _ => if attr then .rtqNameA else .rtqName
  | .runtime attr => if attr then .rtqNameLA else .rtqNameL
  | .ambiguous attr .. => if attr then .multinameA else .multiname
  | .late attr _ => if attr then .multinameLA else .multinameL
  | .applied .. => .typeName

/-- The name, for the forms that spell one out. -/
def name? : Multiname → Option String
  | .qualified _ _ name | .runtimeQualified _ name | .ambiguous _ name _ => some name
  | _ => none

/-- The namespace, for qualified names. -/
def namespace? : Multiname → Option Namespace
  | .qualified _ ns _ => some ns
  | _ => none

/-- The set of namespaces, for the forms that are looked up in one. -/
def namespaceSet? : Multiname → Option NamespaceSet
  | .ambiguous _ _ set | .late _ set => some set
  | _ => none

/-- The generic type and its parameters, for type applications. -/
def application? : Multiname → Option (Multiname × List Multiname)
  | .applied base params => some (base, params)
  | _ => none

/-- The dotted name of a qualified name.  Names of the global and of a nameless namespace have
    nothing in front. -/
def dotted? : Multiname → Option String
  | .qualified _ ns name =>
    some (if ns.name = "" ∨ ns = .global then name else ns.name ++ "." ++ name)
  | _ => none

/-! ## Listings -/

mutual
/-- The multiname in listings. -/
def text : Multiname → String
  | n@(.qualified _ ns name) => s!"{n.kind.label}({ns.text}, {Quoted.quote name})"
  | n@(.runtimeQualified _ name) => s!"{n.kind.label}({Quoted.quote name})"
  | n@(.runtime _) => s!"{n.kind.label}()"
  | n@(.ambiguous _ name set) => s!"{n.kind.label}({Quoted.quote name}, {set.text})"
  | n@(.late _ set) => s!"{n.kind.label}({set.text})"
  | .applied base params =>
    s!"{MultinameKind.typeName.label}({base.text}<" ++ ", ".intercalate (textAll params) ++ ">)"

/-- Each of a list of multinames in listings. -/
def textAll : List Multiname → List String
  | [] => []
  | name :: names => name.text :: textAll names
end

end Multiname

end ActionBytecode
