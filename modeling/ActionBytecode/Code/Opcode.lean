/-
  ActionBytecode — the instruction set.

  Every instruction has a byte, a mnemonic and a list of operand kinds.  `Opcode.descriptor` is
  the one table of them; looking a byte up (`Opcode.ofByte?`) searches the same table, so the two
  directions cannot drift apart (`Opcode.ofByte?_byte`).

  `lookupswitch` alone has operands beyond its descriptor: after the default target and the case
  count stand the targets of the cases, one more than the count says.

  Seven bytes are reserved: they name instructions whose operands are not modelled.
-/
namespace ActionBytecode

/-- How an operand stands on the wire, and what it denotes. -/
inductive OperandKind where
  /-- An unsigned byte. -/
  | u8
  /-- A signed byte. -/
  | s8
  /-- A packed unsigned number: a count, a register or a slot. -/
  | u30
  /-- An index into the table of integers. -/
  | int
  /-- An index into the table of unsigned integers. -/
  | uint
  /-- An index into the table of doubles. -/
  | double
  /-- An index into the table of strings. -/
  | string
  /-- An index into the table of namespaces. -/
  | nspace
  /-- An index into the table of multinames. -/
  | multiname
  /-- An index into the table of methods. -/
  | method
  /-- An index into the table of classes. -/
  | classRef
  /-- A signed distance of three bytes to the target of a jump. -/
  | offset
  deriving DecidableEq, Repr

namespace OperandKind

/-- The kind in messages. -/
def label : OperandKind → String
  | u8 => "u8"
  | s8 => "s8"
  | u30 => "u30"
  | int => "int"
  | uint => "uint"
  | double => "double"
  | string => "string"
  | nspace => "namespace"
  | multiname => "multiname"
  | method => "method"
  | classRef => "class"
  | offset => "offset"

/-- Whether the operand is a distance to jump. -/
def isJump (kind : OperandKind) : Bool := kind == .offset

end OperandKind

/-- The instructions. -/
inductive Opcode where
  | bkpt | nop | throw | getSuper | setSuper | dxns | dxnsLate | kill | label | ifNlt | ifNle
  | ifNgt | ifNge | jump | ifTrue | ifFalse | ifEq | ifNe | ifLt | ifLe | ifGt | ifGe
  | ifStrictEq | ifStrictNe | lookupSwitch | pushWith | popScope | nextName | hasNext | pushNull
  | pushUndefined | nextValue | pushByte | pushShort | pushTrue | pushFalse | pushNaN | pop | dup
  | swap | pushString | pushInt | pushUint | pushDouble | pushScope | pushNamespace | hasNext2
  | li8 | li16 | li32 | lf32 | lf64 | si8 | si16 | si32 | sf32 | sf64 | newFunction | call
  | construct | callMethod | callStatic | callSuper | callProperty | returnVoid | returnValue
  | constructSuper | constructProp | callPropLex | callSuperVoid | callPropVoid | sxi1 | sxi8
  | sxi16 | applyType | newObject | newArray | newActivation | newClass | getDescendants
  | newCatch | findPropStrict | findProperty | findDef | getLex | setProperty | getLocal
  | setLocal | getGlobalScope | getScopeObject | getProperty | getOuterScope | initProperty
  | deleteProperty | getSlot | setSlot | getGlobalSlot | setGlobalSlot | convertS | escXElem
  | escXAttr | convertI | convertU | convertD | convertB | convertO | checkFilter | coerce
  | coerceB | coerceA | coerceI | coerceD | coerceS | asType | asTypeLate | coerceU | coerceO
  | negate | increment | incLocal | decrement | decLocal | typeOf | not | bitNot | add | subtract
  | multiply | divide | modulo | lShift | rShift | uRShift | bitAnd | bitOr | bitXor | equals
  | strictEquals | lessThan | lessEquals | greaterThan | greaterEquals | instanceOf | isType
  | isTypeLate | inOp | incrementI | decrementI | incLocalI | decLocalI | negateI | addI
  | subtractI | multiplyI | getLocal0 | getLocal1 | getLocal2 | getLocal3 | setLocal0 | setLocal1
  | setLocal2 | setLocal3 | debug | debugLine | debugFile | bkptLine | timestamp
  deriving DecidableEq, Repr

namespace Opcode

/-- The byte, the mnemonic and the operands of an instruction. -/
structure Descriptor where
  byte : UInt8
  mnemonic : String
  operands : List OperandKind

/-- The descriptor of each instruction. -/
def descriptor : Opcode → Descriptor
  | .bkpt => ⟨0x01, "bkpt", []⟩
  | .nop => ⟨0x02, "nop", []⟩
  | .throw => ⟨0x03, "throw", []⟩
  | .getSuper => ⟨0x04, "getsuper", [.multiname]⟩
  | .setSuper => ⟨0x05, "setsuper", [.multiname]⟩
  | .dxns => ⟨0x06, "dxns", [.string]⟩
  | .dxnsLate => ⟨0x07, "dxnslate", []⟩
  | .kill => ⟨0x08, "kill", [.u30]⟩
  | .label => ⟨0x09, "label", []⟩
  | .ifNlt => ⟨0x0c, "ifnlt", [.offset]⟩
  | .ifNle => ⟨0x0d, "ifnle", [.offset]⟩
  | .ifNgt => ⟨0x0e, "ifngt", [.offset]⟩
  | .ifNge => ⟨0x0f, "ifnge", [.offset]⟩
  | .jump => ⟨0x10, "jump", [.offset]⟩
  | .ifTrue => ⟨0x11, "iftrue", [.offset]⟩
  | .ifFalse => ⟨0x12, "iffalse", [.offset]⟩
  | .ifEq => ⟨0x13, "ifeq", [.offset]⟩
  | .ifNe => ⟨0x14, "ifne", [.offset]⟩
  | .ifLt => ⟨0x15, "iflt", [.offset]⟩
  | .ifLe => ⟨0x16, "ifle", [.offset]⟩
  | .ifGt => ⟨0x17, "ifgt", [.offset]⟩
  | .ifGe => ⟨0x18, "ifge", [.offset]⟩
  | .ifStrictEq => ⟨0x19, "ifstricteq", [.offset]⟩
  | .ifStrictNe => ⟨0x1a, "ifstrictne", [.offset]⟩
  | .lookupSwitch => ⟨0x1b, "lookupswitch", [.offset, .u30]⟩
  | .pushWith => ⟨0x1c, "pushwith", []⟩
  | .popScope => ⟨0x1d, "popscope", []⟩
  | .nextName => ⟨0x1e, "nextname", []⟩
  | .hasNext => ⟨0x1f, "hasnext", []⟩
  | .pushNull => ⟨0x20, "pushnull", []⟩
  | .pushUndefined => ⟨0x21, "pushundefined", []⟩
  | .nextValue => ⟨0x23, "nextvalue", []⟩
  | .pushByte => ⟨0x24, "pushbyte", [.s8]⟩
  | .pushShort => ⟨0x25, "pushshort", [.u30]⟩
  | .pushTrue => ⟨0x26, "pushtrue", []⟩
  | .pushFalse => ⟨0x27, "pushfalse", []⟩
  | .pushNaN => ⟨0x28, "pushnan", []⟩
  | .pop => ⟨0x29, "pop", []⟩
  | .dup => ⟨0x2a, "dup", []⟩
  | .swap => ⟨0x2b, "swap", []⟩
  | .pushString => ⟨0x2c, "pushstring", [.string]⟩
  | .pushInt => ⟨0x2d, "pushint", [.int]⟩
  | .pushUint => ⟨0x2e, "pushuint", [.uint]⟩
  | .pushDouble => ⟨0x2f, "pushdouble", [.double]⟩
  | .pushScope => ⟨0x30, "pushscope", []⟩
  | .pushNamespace => ⟨0x31, "pushnamespace", [.nspace]⟩
  | .hasNext2 => ⟨0x32, "hasnext2", [.u30, .u30]⟩
  | .li8 => ⟨0x35, "li8", []⟩
  | .li16 => ⟨0x36, "li16", []⟩
  | .li32 => ⟨0x37, "li32", []⟩
  | .lf32 => ⟨0x38, "lf32", []⟩
  | .lf64 => ⟨0x39, "lf64", []⟩
  | .si8 => ⟨0x3a, "si8", []⟩
  | .si16 => ⟨0x3b, "si16", []⟩
  | .si32 => ⟨0x3c, "si32", []⟩
  | .sf32 => ⟨0x3d, "sf32", []⟩
  | .sf64 => ⟨0x3e, "sf64", []⟩
  | .newFunction => ⟨0x40, "newfunction", [.method]⟩
  | .call => ⟨0x41, "call", [.u30]⟩
  | .construct => ⟨0x42, "construct", [.u30]⟩
  | .callMethod => ⟨0x43, "callmethod", [.u30, .u30]⟩
  | .callStatic => ⟨0x44, "callstatic", [.method, .u30]⟩
  | .callSuper => ⟨0x45, "callsuper", [.multiname, .u30]⟩
  | .callProperty => ⟨0x46, "callproperty", [.multiname, .u30]⟩
  | .returnVoid => ⟨0x47, "returnvoid", []⟩
  | .returnValue => ⟨0x48, "returnvalue", []⟩
  | .constructSuper => ⟨0x49, "constructsuper", [.u30]⟩
  | .constructProp => ⟨0x4a, "constructprop", [.multiname, .u30]⟩
  | .callPropLex => ⟨0x4c, "callproplex", [.multiname, .u30]⟩
  | .callSuperVoid => ⟨0x4e, "callsupervoid", [.multiname, .u30]⟩
  | .callPropVoid => ⟨0x4f, "callpropvoid", [.multiname, .u30]⟩
  | .sxi1 => ⟨0x50, "sxi1", []⟩
  | .sxi8 => ⟨0x51, "sxi8", []⟩
  | .sxi16 => ⟨0x52, "sxi16", []⟩
  | .applyType => ⟨0x53, "applytype", [.u30]⟩
  | .newObject => ⟨0x55, "newobject", [.u30]⟩
  | .newArray => ⟨0x56, "newarray", [.u30]⟩
  | .newActivation => ⟨0x57, "newactivation", []⟩
  | .newClass => ⟨0x58, "newclass", [.classRef]⟩
  | .getDescendants => ⟨0x59, "getdescendants", [.multiname]⟩
  | .newCatch => ⟨0x5a, "newcatch", [.u30]⟩
  | .findPropStrict => ⟨0x5d, "findpropstrict", [.multiname]⟩
  | .findProperty => ⟨0x5e, "findproperty", [.multiname]⟩
  | .findDef => ⟨0x5f, "finddef", [.multiname]⟩
  | .getLex => ⟨0x60, "getlex", [.multiname]⟩
  | .setProperty => ⟨0x61, "setproperty", [.multiname]⟩
  | .getLocal => ⟨0x62, "getlocal", [.u30]⟩
  | .setLocal => ⟨0x63, "setlocal", [.u30]⟩
  | .getGlobalScope => ⟨0x64, "getglobalscope", []⟩
  | .getScopeObject => ⟨0x65, "getscopeobject", [.u8]⟩
  | .getProperty => ⟨0x66, "getproperty", [.multiname]⟩
  | .getOuterScope => ⟨0x67, "getouterscope", [.u30]⟩
  | .initProperty => ⟨0x68, "initproperty", [.multiname]⟩
  | .deleteProperty => ⟨0x6a, "deleteproperty", [.multiname]⟩
  | .getSlot => ⟨0x6c, "getslot", [.u30]⟩
  | .setSlot => ⟨0x6d, "setslot", [.u30]⟩
  | .getGlobalSlot => ⟨0x6e, "getglobalslot", [.u30]⟩
  | .setGlobalSlot => ⟨0x6f, "setglobalslot", [.u30]⟩
  | .convertS => ⟨0x70, "convert_s", []⟩
  | .escXElem => ⟨0x71, "esc_xelem", []⟩
  | .escXAttr => ⟨0x72, "esc_xattr", []⟩
  | .convertI => ⟨0x73, "convert_i", []⟩
  | .convertU => ⟨0x74, "convert_u", []⟩
  | .convertD => ⟨0x75, "convert_d", []⟩
  | .convertB => ⟨0x76, "convert_b", []⟩
  | .convertO => ⟨0x77, "convert_o", []⟩
  | .checkFilter => ⟨0x78, "checkfilter", []⟩
  | .coerce => ⟨0x80, "coerce", [.multiname]⟩
  | .coerceB => ⟨0x81, "coerce_b", []⟩
  | .coerceA => ⟨0x82, "coerce_a", []⟩
  | .coerceI => ⟨0x83, "coerce_i", []⟩
  | .coerceD => ⟨0x84, "coerce_d", []⟩
  | .coerceS => ⟨0x85, "coerce_s", []⟩
  | .asType => ⟨0x86, "astype", [.multiname]⟩
  | .asTypeLate => ⟨0x87, "astypelate", []⟩
  | .coerceU => ⟨0x88, "coerce_u", []⟩
  | .coerceO => ⟨0x89, "coerce_o", []⟩
  | .negate => ⟨0x90, "negate", []⟩
  | .increment => ⟨0x91, "increment", []⟩
  | .incLocal => ⟨0x92, "inclocal", [.u30]⟩
  | .decrement => ⟨0x93, "decrement", []⟩
  | .decLocal => ⟨0x94, "declocal", [.u30]⟩
  | .typeOf => ⟨0x95, "typeof", []⟩
  | .not => ⟨0x96, "not", []⟩
  | .bitNot => ⟨0x97, "bitnot", []⟩
  | .add => ⟨0xa0, "add", []⟩
  | .subtract => ⟨0xa1, "subtract", []⟩
  | .multiply => ⟨0xa2, "multiply", []⟩
  | .divide => ⟨0xa3, "divide", []⟩
  | .modulo => ⟨0xa4, "modulo", []⟩
  | .lShift => ⟨0xa5, "lshift", []⟩
  | .rShift => ⟨0xa6, "rshift", []⟩
  | .uRShift => ⟨0xa7, "urshift", []⟩
  | .bitAnd => ⟨0xa8, "bitand", []⟩
  | .bitOr => ⟨0xa9, "bitor", []⟩
  | .bitXor => ⟨0xaa, "bitxor", []⟩
  | .equals => ⟨0xab, "equals", []⟩
  | .strictEquals => ⟨0xac, "strictequals", []⟩
  | .lessThan => ⟨0xad, "lessthan", []⟩
  | .lessEquals => ⟨0xae, "lessequals", []⟩
  | .greaterThan => ⟨0xaf, "greaterthan", []⟩
  | .greaterEquals => ⟨0xb0, "greaterequals", []⟩
  | .instanceOf => ⟨0xb1, "instanceof", []⟩
  | .isType => ⟨0xb2, "istype", [.multiname]⟩
  | .isTypeLate => ⟨0xb3, "istypelate", []⟩
  | .inOp => ⟨0xb4, "in", []⟩
  | .incrementI => ⟨0xc0, "increment_i", []⟩
  | .decrementI => ⟨0xc1, "decrement_i", []⟩
  | .incLocalI => ⟨0xc2, "inclocal_i", [.u30]⟩
  | .decLocalI => ⟨0xc3, "declocal_i", [.u30]⟩
  | .negateI => ⟨0xc4, "negate_i", []⟩
  | .addI => ⟨0xc5, "add_i", []⟩
  | .subtractI => ⟨0xc6, "subtract_i", []⟩
  | .multiplyI => ⟨0xc7, "multiply_i", []⟩
  | .getLocal0 => ⟨0xd0, "getlocal0", []⟩
  | .getLocal1 => ⟨0xd1, "getlocal1", []⟩
  | .getLocal2 => ⟨0xd2, "getlocal2", []⟩
  | .getLocal3 => ⟨0xd3, "getlocal3", []⟩
  | .setLocal0 => ⟨0xd4, "setlocal0", []⟩
  | .setLocal1 => ⟨0xd5, "setlocal1", []⟩
  | .setLocal2 => ⟨0xd6, "setlocal2", []⟩
  | .setLocal3 => ⟨0xd7, "setlocal3", []⟩
  | .debug => ⟨0xef, "debug", [.u8, .string, .u8, .u30]⟩
  | .debugLine => ⟨0xf0, "debugline", [.u30]⟩
  | .debugFile => ⟨0xf1, "debugfile", [.string]⟩
  | .bkptLine => ⟨0xf2, "bkptline", [.u30]⟩
  | .timestamp => ⟨0xf3, "timestamp", []⟩

/-- Every instruction, by ascending byte. -/
def all : List Opcode := [
  .bkpt, .nop, .throw, .getSuper, .setSuper, .dxns, .dxnsLate, .kill, .label, .ifNlt, .ifNle,
  .ifNgt, .ifNge, .jump, .ifTrue, .ifFalse, .ifEq, .ifNe, .ifLt, .ifLe, .ifGt, .ifGe,
  .ifStrictEq, .ifStrictNe, .lookupSwitch, .pushWith, .popScope, .nextName, .hasNext, .pushNull,
  .pushUndefined, .nextValue, .pushByte, .pushShort, .pushTrue, .pushFalse, .pushNaN, .pop, .dup,
  .swap, .pushString, .pushInt, .pushUint, .pushDouble, .pushScope, .pushNamespace, .hasNext2,
  .li8, .li16, .li32, .lf32, .lf64, .si8, .si16, .si32, .sf32, .sf64, .newFunction, .call,
  .construct, .callMethod, .callStatic, .callSuper, .callProperty, .returnVoid, .returnValue,
  .constructSuper, .constructProp, .callPropLex, .callSuperVoid, .callPropVoid, .sxi1, .sxi8,
  .sxi16, .applyType, .newObject, .newArray, .newActivation, .newClass, .getDescendants,
  .newCatch, .findPropStrict, .findProperty, .findDef, .getLex, .setProperty, .getLocal,
  .setLocal, .getGlobalScope, .getScopeObject, .getProperty, .getOuterScope, .initProperty,
  .deleteProperty, .getSlot, .setSlot, .getGlobalSlot, .setGlobalSlot, .convertS, .escXElem,
  .escXAttr, .convertI, .convertU, .convertD, .convertB, .convertO, .checkFilter, .coerce,
  .coerceB, .coerceA, .coerceI, .coerceD, .coerceS, .asType, .asTypeLate, .coerceU, .coerceO,
  .negate, .increment, .incLocal, .decrement, .decLocal, .typeOf, .not, .bitNot, .add, .subtract,
  .multiply, .divide, .modulo, .lShift, .rShift, .uRShift, .bitAnd, .bitOr, .bitXor, .equals,
  .strictEquals, .lessThan, .lessEquals, .greaterThan, .greaterEquals, .instanceOf, .isType,
  .isTypeLate, .inOp, .incrementI, .decrementI, .incLocalI, .decLocalI, .negateI, .addI,
  .subtractI, .multiplyI, .getLocal0, .getLocal1, .getLocal2, .getLocal3, .setLocal0, .setLocal1,
  .setLocal2, .setLocal3, .debug, .debugLine, .debugFile, .bkptLine, .timestamp]

/-- The byte of an instruction. -/
def byte (opcode : Opcode) : UInt8 := opcode.descriptor.byte

/-- The mnemonic of an instruction. -/
def mnemonic (opcode : Opcode) : String := opcode.descriptor.mnemonic

/-- The operands that the descriptor fixes.  The targets of the cases of a `lookupswitch` follow
    these. -/
def operandKinds (opcode : Opcode) : List OperandKind := opcode.descriptor.operands

/-- The instruction with a given byte. -/
def ofByte? (b : UInt8) : Option Opcode :=
  all.find? (·.byte == b)

/-- The mnemonic of a reserved byte. -/
def reserved? (b : UInt8) : Option String :=
  match b with
  | 0x22 => some "pushconstant"
  | 0x33 => some "pushdecimal"
  | 0x34 => some "pushdnan"
  | 0x4b => some "callsuperid"
  | 0x4d => some "callinterface"
  | 0x5b => some "findpropglobalstrict"
  | 0x5c => some "findpropglobal"
  | _ => none

/-- Whether an operand of the instruction is a distance to jump. -/
def isJump (opcode : Opcode) : Bool :=
  opcode.operandKinds.any OperandKind.isJump

/-- Whether the instruction only tells a debugger where it is. -/
def isDebugMarker : Opcode → Bool
  | .debug | .debugLine | .debugFile => true
  | _ => false

theorem mem_all (opcode : Opcode) : opcode ∈ all := by
  cases opcode <;> decide +kernel

/-- **Looking up the byte of an instruction gives the instruction.** -/
@[simp] theorem ofByte?_byte (opcode : Opcode) : ofByte? opcode.byte = some opcode := by
  have table : ∀ opcode ∈ all, ofByte? opcode.byte = some opcode := by decide +kernel
  exact table opcode (mem_all opcode)

/-- There are three markers. -/
theorem isDebugMarker_iff {opcode : Opcode} :
    opcode.isDebugMarker = true ↔ opcode = .debug ∨ opcode = .debugLine ∨ opcode = .debugFile := by
  have table : ∀ opcode ∈ all, opcode.isDebugMarker = true ↔
      opcode = .debug ∨ opcode = .debugLine ∨ opcode = .debugFile := by decide +kernel
  exact table opcode (mem_all opcode)

end Opcode

end ActionBytecode
