/-
  ActionBytecode — handles, and places in code.

  Methods and classes are known by handles that outlive every reordering of the tables on the
  wire, and instructions by identities that outlive every reordering of the code.  A jump names
  its target, and an exception handler its range, either by where they stand in the bytes or by
  the instruction there.

  Handles and identities are numbers without an end.  Below 2^32 they are the same as numbers of 32
  bits: handles while a unit has at most so many methods and classes, and identities while no more
  instructions were made for it.  Two identities are compared only within the code of one method,
  so what matters of them is that they differ there.
-/
namespace ActionBytecode

/-- A method of a unit. -/
structure MethodHandle where
  index : Nat
  deriving DecidableEq, Repr

/-- A class of a unit. -/
structure ClassHandle where
  index : Nat
  deriving DecidableEq, Repr

/-- An instruction of a unit. -/
structure InstructionId where
  index : Nat
  deriving DecidableEq, Repr

/-- Where a jump leads. -/
inductive JumpTarget where
  /-- So many bytes away. -/
  | offset (distance : Int)
  /-- To an instruction. -/
  | instruction (id : InstructionId)
  deriving DecidableEq, Repr

/-- A place in the code of a method. -/
inductive CodePosition where
  /-- So many bytes from the start. -/
  | offset (bytes : UInt32)
  /-- At the start of an instruction. -/
  | instruction (id : InstructionId)
  /-- After the last instruction. -/
  | finish
  deriving DecidableEq, Repr

namespace CodePosition

/-- The place in messages. -/
def describe : CodePosition → String
  | offset bytes => s!"Offset({bytes.toNat})"
  | instruction id => s!"Instr(InstrId({id.index}))"
  | finish => "End"

/-- Whether the place is a number of bytes. -/
def isOffset : CodePosition → Bool
  | offset _ => true
  | _ => false

end CodePosition

end ActionBytecode
