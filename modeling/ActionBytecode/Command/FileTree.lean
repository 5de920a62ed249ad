/-
  ActionBytecode — files in memory.

  A tree of files, as a list of paths from its root with the bytes there.  A path is a list of
  names.  The directories are those on the way to a file, and the current one with those around
  it.  Commands can run on such a tree as they do on the files of a system.

  The tree hangs in a system of which it knows little: the directory around the tree, which it
  takes for the root of the system, one for passing files, and the device that swallows all that
  is written to it.  What is written elsewhere outside is not kept.
-/
import ActionBytecode.Command.Run

namespace ActionBytecode

/-- Files in memory, and the current directory. -/
structure FileTree where
  current : List String
  files : List (List String × Bytes)

namespace FileTree

/-- Why a path leads nowhere. -/
inductive Obstacle where
  | missing
  | notDirectory
  | directory
  | nameTooLong
  deriving DecidableEq, Repr

/-- The wording of the system. -/
def Obstacle.text : Obstacle → String
  | missing => "No such file or directory (os error 2)"
  | notDirectory => "Not a directory (os error 20)"
  | directory => "Is a directory (os error 21)"
  | nameTooLong => "File name too long (os error 36)"

/-- Where a path leads to. -/
inductive Place where
  /-- Into the tree, by a path from its root. -/
  | inside (path : List String)
  /-- Out of the tree, by a path from the root of the system. -/
  | outside (path : List String)
  deriving DecidableEq, Repr

/-- The directory around a place; the root of the system is in itself. -/
def Place.around : Place → Place
  | inside [] => outside []
  | inside path => inside path.dropLast
  | outside path => outside path.dropLast

/-- The place with a name in a directory. -/
def Place.child (name : String) : Place → Place
  | inside path => inside (path ++ [name])
  | outside path => outside (path ++ [name])

/-- What is at a place. -/
inductive Node where
  | directory
  | file (bytes : Bytes)
  deriving DecidableEq, Repr

/-- What is known of the system around. -/
def system : List (List String × Node) :=
  [([], .directory), (["tmp"], .directory), (["dev"], .directory), (["dev", "null"], .file [])]

/-- How many bytes a name can have. -/
def nameLimit : Nat := 255

/-- How many bytes a path can have. -/
def pathLimit : Nat := 4095

section
variable (tree : FileTree)

/-- Whether a path from the root is that of a directory. -/
def isDirectory (path : List String) : Bool :=
  path.isPrefixOf tree.current ||
    tree.files.any fun (file, _) => path.isPrefixOf file && path != file

/-- The bytes of the file at a path from the root. -/
def file? (path : List String) : Option Bytes := tree.files.lookup path

/-- What is at a place, if anything is. -/
def node? : Place → Option Node
  | .inside path => if tree.isDirectory path then some .directory else (tree.file? path).map .file
  | .outside path => system.lookup path

/-- Go on from a place by a name; an empty one leads nowhere else. -/
def enter (place : Place) (name : String) : Except Obstacle Place :=
  match tree.node? place, name with
  | none, _ => .error .missing
  | some (.file _), _ => .error .notDirectory
  | some .directory, "" | some .directory, "." => .ok place
  | some .directory, ".." => .ok place.around
  | some .directory, name =>
    if name.utf8ByteSize > nameLimit then .error .nameTooLong else .ok (place.child name)

/-- Go on from the root of the system, or else from the current directory, by the names of a path,
    all of them or all but the last. -/
def follow (path : String) (names : List String) : Except Obstacle Place :=
  if path.utf8ByteSize > pathLimit then .error .nameTooLong
  else if path.isEmpty then .error .missing
  else names.foldlM tree.enter (if path.startsWith "/" then .outside [] else .inside tree.current)

/-- What a path leads to. -/
def find (path : String) : Except Obstacle Node := do
  match tree.node? (← tree.follow path (path.splitOn "/")) with
  | some node => return node
  | none => throw .missing

/-- The bytes of a file. -/
def read (path : String) : Except Obstacle Bytes := do
  match ← tree.find path with
  | .file bytes => return bytes
  | .directory => throw .directory

/-- Whether there is a file or a directory at a path. -/
def holds (path : String) : Bool := (tree.find path).isOk

/-- The tree with a file written to it.  Only a directory can have a slash after its name. -/
def write (path : String) (bytes : Bytes) : Except Obstacle FileTree := do
  let names := (path.splitOn "/").filter (· ≠ "")
  let directory ← tree.follow path (names.dropLast ++ ["."])
  if path.endsWith "/" then throw .directory
  let place ← tree.enter directory (names.getLast?.getD "")
  match place, tree.node? place with
  | _, some .directory => throw .directory
  | .inside path, _ =>
    return { tree with files := (path, bytes) :: tree.files.filter (·.1 ≠ path) }
  | .outside _, _ => return tree

/-- The current directory and those around it in the tree, from the innermost outwards. -/
def directories : List String :=
  (List.range (tree.current.length + 1)).map fun n => "/".intercalate ("." :: List.replicate n "..")

end

/-- Access to the files of a tree. -/
def access : Files (StateM FileTree) where
  holds path := return (← get).holds path
  read path := return (← get).read path |>.mapError Obstacle.text
  write path bytes := do
    match (← get).write path bytes with
    | .ok tree =>
      set tree
      return .ok ()
    | .error obstacle => return .error obstacle.text
  directories := return (← get).directories

end FileTree

end ActionBytecode
