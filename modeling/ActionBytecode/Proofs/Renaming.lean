/-
  ActionBytecode — units that differ in how things are numbered.

  Writing a unit and reading it back changes three kinds of number and nothing else: the numbers
  that tell private namespaces apart, the handles of methods and classes, and the identities of
  instructions.

  * A `Renaming` replaces namespaces and handles; `rename` carries it through everything that
    refers to them.  A name that is missing and the name `*` are one on the wire, so a method's
    name and the keys of metadata are also brought into the form in which they are read;
  * `Namespace.renumber` is the replacement of the numbers of private namespaces;
  * `Code.byPosition` gives each instruction its place in the code as its identity, so code in
    this form is equal exactly when it differs in identities alone.
-/
import ActionBytecode.CodeUnit.Basic
import ActionBytecode.Constant.Indexing
import ActionBytecode.Proofs.Outcome

namespace ActionBytecode

/-! ## Names -/

/-- The namespace with another number, if it is private. -/
def Namespace.renumber (f : Nat → Nat) (ns : Namespace) : Namespace :=
  .ofKind ns.kind ns.name (f ns.privateId)

/-- The set of the namespaces that the members become. -/
def NamespaceSet.rename (f : Namespace → Namespace) (set : NamespaceSet) : NamespaceSet :=
  .ofList (set.members.map f)

namespace Multiname

mutual
/-- The multiname with its namespaces replaced. -/
def rename (f : Namespace → Namespace) : Multiname → Multiname
  | .qualified attr ns name => .qualified attr (f ns) name
  | .runtimeQualified attr name => .runtimeQualified attr name
  | .runtime attr => .runtime attr
  | .ambiguous attr name set => .ambiguous attr name (set.rename f)
  | .late attr set => .late attr (set.rename f)
  | .applied base params => .applied (base.rename f) (renameAll f params)

/-- Multinames with their namespaces replaced. -/
def renameAll (f : Namespace → Namespace) : List Multiname → List Multiname
  | [] => []
  | name :: names => name.rename f :: renameAll f names
end

@[simp] theorem renameAll_eq_map (f : Namespace → Namespace) :
    ∀ names, renameAll f names = names.map (rename f)
  | [] => rfl
  | name :: names => by rw [renameAll, renameAll_eq_map f names, List.map_cons]

end Multiname

def DefaultValue.rename (f : Namespace → Namespace) : DefaultValue → DefaultValue
  | .nspace ns => .nspace (f ns)
  | value => value

/-! ## Declarations -/

/-- What namespaces, methods and classes become. -/
structure Renaming where
  namespaces : Namespace → Namespace
  methods : MethodHandle → MethodHandle
  classes : ClassHandle → ClassHandle

section
variable (r : Renaming)

def Member.rename : Member → Member
  | .slot kind number type value =>
    .slot kind number (type.rename r.namespaces) (value.map (·.rename r.namespaces))
  | .access kind dispatch method => .access kind dispatch (r.methods method)
  | .classBinding number handle => .classBinding number (r.classes handle)
  | .function number method => .function number (r.methods method)

def Trait.rename (t : Trait) : Trait :=
  { t with name := t.name.rename r.namespaces, member := t.member.rename r }

def Signature.rename (signature : Signature) : Signature :=
  { signature with
    name := spelled? signature.name
    returnType := signature.returnType.rename r.namespaces
    parameters := signature.parameters.map (·.rename r.namespaces)
    optional := signature.optional.map (·.rename r.namespaces) }

def Frame.rename (frame : Frame) : Frame :=
  { frame with traits := frame.traits.map (·.rename r) }

def Handler.rename {π : Type} (handler : Handler π) : Handler π :=
  { handler with
    catchType := handler.catchType.rename r.namespaces
    variableName := handler.variableName.rename r.namespaces }

def Operand.rename : Operand → Operand
  | .nspace ns => .nspace (r.namespaces ns)
  | .multiname name => .multiname (name.rename r.namespaces)
  | .method handle => .method (r.methods handle)
  | .classRef handle => .classRef (r.classes handle)
  | operand => operand

def Instruction.rename (instruction : Instruction) : Instruction :=
  { instruction with operands := instruction.operands.map (·.rename r) }

def Code.rename : Code → Code
  | .raw bytes handlers => .raw bytes (handlers.map (·.rename r))
  | .symbolic instructions handlers =>
    .symbolic (instructions.map (·.rename r)) (handlers.map (·.rename r))

def Body.rename (body : Body) : Body :=
  { toFrame := body.toFrame.rename r, code := body.code.rename r }

def Method.rename (method : Method) : Method :=
  { toSignature := method.toSignature.rename r, body := method.body.map (·.rename r) }

def ClassDefinition.rename (cls : ClassDefinition) : ClassDefinition :=
  { cls with
    name := cls.name.rename r.namespaces
    superName := cls.superName.rename r.namespaces
    protectedNamespace := cls.protectedNamespace.map r.namespaces
    interfaces := cls.interfaces.map (·.rename r.namespaces)
    constructor := r.methods cls.constructor
    instanceTraits := cls.instanceTraits.map (·.rename r)
    staticInit := r.methods cls.staticInit
    staticTraits := cls.staticTraits.map (·.rename r) }

def Script.rename (script : Script) : Script where
  init := r.methods script.init
  traits := script.traits.map (·.rename r)

end

/-- The metadata as they are read back: the key `*` is no key. -/
def Metadata.asRead (entry : Metadata) : Metadata :=
  { entry with items := entry.items.map fun (key, value) => (spelled? key, value) }

/-! ## The renaming that changes nothing -/

/-- Everything stays what it is. -/
def Renaming.refl : Renaming := ⟨id, id, id⟩

theorem NamespaceSet.rename_id (set : NamespaceSet) : set.rename id = set := by
  rw [NamespaceSet.ext_iff_mem]
  intro ns
  rw [NamespaceSet.rename, List.map_id, NamespaceSet.mem_ofList, NamespaceSet.mem_def]

mutual
theorem Multiname.rename_id : ∀ name : Multiname, name.rename id = name
  | .qualified .. | .runtimeQualified .. | .runtime _ => rfl
  | .ambiguous _ _ set | .late _ set => by rw [rename, NamespaceSet.rename_id]
  | .applied base params => by rw [rename, rename_id base, renameAll_id params]

theorem Multiname.renameAll_id : ∀ names : List Multiname, renameAll id names = names
  | [] => rfl
  | name :: names => by rw [renameAll, rename_id name, renameAll_id names]
end

theorem Operand.rename_refl (operand : Operand) : operand.rename .refl = operand := by
  cases operand <;> simp [rename, Renaming.refl, Multiname.rename_id]

theorem Handler.rename_refl {π : Type} (handler : Handler π) : handler.rename .refl = handler := by
  simp [rename, Renaming.refl, Multiname.rename_id]

/-! ## Identities of instructions -/

section
variable (f : InstructionId → InstructionId)

def JumpTarget.renumber : JumpTarget → JumpTarget
  | .instruction id => .instruction (f id)
  | .offset distance => .offset distance

def CodePosition.renumber : CodePosition → CodePosition
  | .instruction id => .instruction (f id)
  | position => position

def Operand.renumber : Operand → Operand
  | .target place => .target (place.renumber f)
  | operand => operand

def Instruction.renumber (instruction : Instruction) : Instruction where
  id := f instruction.id
  opcode := instruction.opcode
  operands := instruction.operands.map (·.renumber f)

end

namespace Code

/-- The code with the place of each instruction as its identity. -/
def byPosition : Code → Code
  | raw bytes handlers => raw bytes handlers
  | symbolic instructions handlers =>
    let place (id : InstructionId) : InstructionId := ⟨(instructions.map (·.id)).idxOf id⟩
    symbolic (instructions.map (·.renumber place)) (handlers.map (·.map (·.renumber place)))

end Code

/-- The method with code in which the place of each instruction is its identity. -/
def Method.byPosition (method : Method) : Method :=
  { method with body := method.body.map fun body => { body with code := body.code.byPosition } }

end ActionBytecode
