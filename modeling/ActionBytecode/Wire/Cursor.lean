/-
  ActionBytecode — reading bytes from front to back.

  A `Cursor` is what is left to read and how much is read already.  A `Reader` takes a value off
  its front.  A reader that fails also leaves a cursor: the bytes that it took before it failed
  stay taken.

  * `Reader.bytes` and `Reader.u8` are the only readers that touch the bytes; all others are made
    of them;
  * `Reader.times` reads a value so many times, and stops at the first that fails.
-/
import ActionBytecode.Fault

namespace ActionBytecode

/-- Bytes, as they stand on the wire. -/
abbrev Bytes := List UInt8

/-- The bytes left to read, after so many. -/
structure Cursor where
  offset : Nat
  rest : Bytes
  deriving DecidableEq, Repr

namespace Cursor

/-- The cursor before the first byte. -/
def start (bytes : Bytes) : Cursor := ⟨0, bytes⟩

/-- Whether all bytes are read. -/
def atEnd (c : Cursor) : Bool := c.rest.isEmpty

/-- How many bytes are left. -/
def remaining (c : Cursor) : Nat := c.rest.length

end Cursor

/-- A reader of values: it takes bytes off a cursor and gives a value, or fails. -/
abbrev Reader (α : Type) := EStateM Fault Cursor α

namespace Reader

/-- The number of bytes read so far. -/
def offset : Reader Nat := return (← get).offset

/-- Fail with what is wrong with the bytes at `offset`. -/
def malformed {α : Type} (offset : Nat) (cause : Malformation) : Reader α :=
  throw (.malformed offset cause)

/-- Give the value that should be there, or fail. -/
def require {α : Type} (value : Option α) (offset : Nat) (cause : Malformation) : Reader α :=
  match value with
  | some a => pure a
  | none => malformed offset cause

/-- Give a result that does not hang on the bytes. -/
def ofExcept {α : Type} : Except Fault α → Reader α
  | .ok a => pure a
  | .error fault => throw fault

/-- The next byte. -/
def u8 : Reader UInt8 := fun c =>
  match c.rest with
  | [] => .error (.unexpectedEnd c.offset) c
  | b :: rest => .ok b ⟨c.offset + 1, rest⟩

/-- The next `n` bytes.  When fewer are left, none is taken. -/
def bytes (n : Nat) : Reader Bytes := fun c =>
  let taken := c.rest.take n
  if taken.length = n then .ok taken ⟨c.offset + n, c.rest.drop n⟩
  else .error (.unexpectedEnd c.offset) c

/-- Read `n` values, and put them behind those of `done`, which are in reverse order. -/
def timesOnto {α : Type} (read : Reader α) : (n : Nat) → (done : List α) → Reader (List α)
  | 0, done => pure done.reverse
  | n + 1, done => do
    let a ← read
    timesOnto read n (a :: done)

/-- Read `n` values. -/
def times {α : Type} (n : Nat) (read : Reader α) : Reader (List α) :=
  timesOnto read n []

end Reader

end ActionBytecode
