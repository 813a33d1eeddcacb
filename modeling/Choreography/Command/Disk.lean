/-
Choreography/Command/Disk.lean

Files as the command line sees them.

A `Disk` is the little that the program needs of a file system, in any monad.  A
`FileTree` is a file system that lives in memory; paths are resolved in it step by
step from its root.
-/

namespace Choreography

namespace Command

/-- What reading a file gives. -/
inductive Source where
  /-- There is no such file. -/
  | missing
  /-- There is something, but it is no text. -/
  | garbled
  | text (content : String)

/-- Access to files.  The two writing operations tell whether they succeeded. -/
structure Disk (m : Type → Type) where
  read : String → m Source
  /-- Makes a directory and the directories around it. -/
  makeDirs : String → m Bool
  write : String → String → m Bool

/-! ### Paths -/

namespace Path

/-- The names in a path between the slashes; empty ones at doubled slashes. -/
def segments : List Char → List (List Char)
  | [] => [[]]
  | c :: cs =>
    if c = '/' then [] :: segments cs
    else
      match segments cs with
      | [] => [[c]]
      | segment :: rest => (c :: segment) :: rest

/-- Drops separators, and names that stand for the same place, from the end of a
reversed path. -/
def dropTrailing : List Char → List Char
  | '/' :: cs => dropTrailing cs
  | '.' :: '/' :: cs => dropTrailing cs
  | cs => cs

/-- The directory that a path lies in; empty if the path names none. -/
def parent (path : String) : String :=
  let rest := (dropTrailing path.toList.reverse).dropWhile (· != '/')
  let dir := dropTrailing rest
  String.ofList (if dir.isEmpty && !rest.isEmpty then ['/'] else dir.reverse)

end Path

/-! ### File trees -/

/-- Files and directories by the names on the way to them. -/
structure FileTree where
  files : List (List String × String)
  dirs : List (List String)

namespace FileTree

/-- Where a path leads. -/
inductive Place where
  | dir (names : List String)
  | file (content : String)
  /-- Nothing yet, in an existing directory. -/
  | free (names : List String)
  | nowhere

/-- Whether there is a directory. -/
def isDir (t : FileTree) (names : List String) : Bool := names.isEmpty || t.dirs.contains names

/-- Walks on from a directory. -/
def follow (t : FileTree) : List String → List String → Place
  | here, [] => .dir here
  | here, name :: rest =>
    if name = "" ∨ name = "." then follow t here rest
    else if name = ".." then follow t here.dropLast rest
    else
      let there := here ++ [name]
      if t.isDir there then follow t there rest
      else
        match rest, t.files.lookup there with
        | [], some content => .file content
        | [], none => .free there
        | _ :: _, _ => .nowhere

/-- Where a path leads from the root. -/
def locate (t : FileTree) (path : String) : Place :=
  if path.isEmpty then .nowhere
  else t.follow [] ((Path.segments path.toList).map String.ofList)

/-- Makes the directories of a path one after another. -/
def makeDirsFrom (t : FileTree) : List String → List String → Option FileTree
  | _, [] => some t
  | here, name :: rest =>
    if name = "" ∨ name = "." then makeDirsFrom t here rest
    else if name = ".." then makeDirsFrom t here.dropLast rest
    else
      let there := here ++ [name]
      if (t.files.lookup there).isSome then none
      else if t.isDir there then makeDirsFrom t there rest
      else makeDirsFrom { t with dirs := there :: t.dirs } there rest

/-- Makes the directories of a path. -/
def makeDirs (t : FileTree) (path : String) : Option FileTree :=
  t.makeDirsFrom [] ((Path.segments path.toList).map String.ofList)

/-- Writes a file. -/
def write (t : FileTree) (path content : String) : Option FileTree :=
  let put (names : List String) : FileTree :=
    { t with files := (names, content) :: t.files.filter (·.1 ≠ names) }
  let names := ((Path.segments path.toList).map String.ofList).filter (· ≠ "")
  match t.locate path with
  | .free there => if path.endsWith "/" then none else some (put there)
  | .file _ => some (put (names.filter (· ≠ ".")))
  | _ => none

/-- The content of a file. -/
def read (t : FileTree) (path : String) : Source :=
  match t.locate path with
  | .file content => .text content
  | .dir _ => .garbled
  | _ => .missing

/-- A tree with a file and the directories around it. -/
def withFile (t : FileTree) (path content : String) : FileTree :=
  let t := (t.makeDirs (Path.parent path)).getD t
  (t.write path content).getD t

/-- Access to a tree in memory. -/
def disk : Disk (StateM FileTree) where
  read path := do return (← get).read path
  makeDirs path := do
    match (← get).makeDirs path with
    | some t => set t; return true
    | none => return false
  write path content := do
    match (← get).write path content with
    | some t => set t; return true
    | none => return false

end FileTree

end Command

end Choreography
