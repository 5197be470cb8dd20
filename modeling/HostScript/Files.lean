import HostScript.Failure

/-!
# Files

What a script can see of the file system: for every path, a file's bytes, a directory, or the reason
why there is neither. A file tree gives such a view; so does any other source that can answer for a
path, or that has yet to be asked.
-/

set_option autoImplicit false

namespace HostScript

/-- What is found at a path. -/
inductive Entry where
  | file (bytes : ByteArray)
  | directory
  | absent (reason : FileError)
  /-- Nobody has looked yet. -/
  | unknown

/-- The entry at every path. -/
structure Files where
  entry : String → Entry

/-- The text of a byte sequence. -/
def decodeText (bytes : ByteArray) : Except FileError String :=
  match String.fromUTF8? bytes with
  | some text => .ok text
  | none => .error .notText

/-- A path after another: an absolute one stands for itself. -/
def joinPath (base path : String) : String :=
  if path.startsWith "/" || base.isEmpty then path
  else if base.endsWith "/" then base ++ path
  else s!"{base}/{path}"

/-- The longest name of a file, in bytes. -/
def maxNameBytes : Nat := 255

/-- The length from which a path is too long, in bytes. -/
def maxPathBytes : Nat := 4096

/-- Files by their place below the root, and directories besides those that files imply. -/
structure FileTree where
  files : List (List String × ByteArray) := []
  directories : List (List String) := []

namespace FileTree

/-- Whether a place is a directory. -/
def isDirectory (t : FileTree) (place : List String) : Bool :=
  place.isEmpty || t.directories.any place.isPrefixOf
    || t.files.any fun f => place.isPrefixOf f.1 && f.1 != place

/-- Follows the names of a path from a directory. -/
def walk (t : FileTree) : List String → List String → Entry
  | _, [] => .directory
  | place, name :: rest =>
    if name == "" || name == "." then t.walk place rest
    else if name == ".." then t.walk place.dropLast rest
    else if name.utf8ByteSize > maxNameBytes then .absent .nameTooLong
    else
      let place := place ++ [name]
      match t.files.lookup place with
      | some bytes => if rest.isEmpty then .file bytes else .absent .notDirectory
      | none => if t.isDirectory place then t.walk place rest else .absent .missing

/-- The entry at a path, relative ones taken from a directory. -/
def entry (t : FileTree) (here : List String) (path : String) : Entry :=
  if path.toList.contains '\x00' then .absent .nulInName
  else if path.isEmpty then .absent .missing
  else if path.utf8ByteSize ≥ maxPathBytes then .absent .nameTooLong
  else t.walk (if path.startsWith "/" then [] else here) (path.splitOn "/")

/-- The view of a tree from a directory. -/
def view (t : FileTree) (here : List String) : Files := ⟨t.entry here⟩

end FileTree

end HostScript
