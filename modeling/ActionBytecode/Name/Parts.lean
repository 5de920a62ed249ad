/-
  ActionBytecode — multinames made of parts.

  A multiname that is read, like one that is created, is put together from parts that can be
  missing.  `Multiname.ofParts` refuses a form without the parts that it needs.
-/
import ActionBytecode.Fault

namespace ActionBytecode

/-- The multiname of a form, made of the parts that the form has.  A name that is missing is `*`,
    and parts that the form does not have are left out. -/
def Multiname.ofParts (kind : MultinameKind) (name : Option String) (ns : Option Namespace)
    (set : Option NamespaceSet) (application : Option (Multiname × List Multiname)) :
    Except Fault Multiname :=
  let name := name.getD anyName
  let qualified (attr : Bool) : Except Fault Multiname :=
    match ns with
    | some ns => .ok (.qualified attr ns name)
    | none => .error (.misuse (.missingNamespace kind))
  let withSet (make : NamespaceSet → Multiname) : Except Fault Multiname :=
    match set with
    | some set => .ok (make set)
    | none => .error (.misuse (.missingNamespaceSet kind))
  match kind with
  | .qName => qualified false
  | .qNameA => qualified true
  | .rtqName => .ok (.runtimeQualified false name)
  | .rtqNameA => .ok (.runtimeQualified true name)
  | .rtqNameL => .ok (.runtime false)
  | .rtqNameLA => .ok (.runtime true)
  | .multiname => withSet (.ambiguous false name)
  | .multinameA => withSet (.ambiguous true name)
  | .multinameL => withSet (.late false)
  | .multinameLA => withSet (.late true)
  | .typeName =>
    match application with
    | some (base, params) => .ok (.applied base params)
    | none => .error (.misuse .missingApplication)

end ActionBytecode
