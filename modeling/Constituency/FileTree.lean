import Constituency.Error

/-!
# File trees

The files and folders that a session can see, each under the names that lead to it from the top,
and the folder that the session is started in.

* `FileTree.walk`: follows names from a folder, one by one; every name but the last has to lead to
  a folder.
* `FileTree.read`: the content of the file at a path.
-/

namespace Constituency
set_option autoImplicit false

/-- What a file holds, or why it cannot be read. -/
abbrev FileContent := Except ReadFailure ByteArray

structure FileTree where
  files : List (List String × ByteArray)
  folders : List (List String)
  here : List String

namespace FileTree

/-- The longest name, in bytes. -/
def nameLimit : Nat := 255

/-- The longest path, in bytes. -/
def pathLimit : Nat := 4095

/-- A name that leads nowhere. -/
def isIdle (name : String) : Bool := name = "" || name = "."

/-- The names in a path between its slashes. -/
def names (path : String) : List String := path.splitOn "/"

/-- Adds a file at a path from the folder of the session. -/
def add (t : FileTree) (path : String) (content : ByteArray) : FileTree :=
  { t with files := (t.here ++ (names path).filter (!isIdle ·), content) :: t.files }

def content? (t : FileTree) (place : List String) : Option ByteArray :=
  (t.files.find? (·.1 = place)).map (·.2)

/-- A folder is there if it is known, or if something known is below it. -/
def isFolder (t : FileTree) (place : List String) : Bool :=
  (t.here :: t.folders ++ t.files.map (·.1)).any place.isPrefixOf

def walk (t : FileTree) (place : List String) : List String → FileContent
  | [] => .error .isDirectory
  | name :: rest =>
    if isIdle name then t.walk place rest
    else if name = ".." then t.walk place.dropLast rest
    else if nameLimit < name.utf8ByteSize then .error .nameTooLong
    else
      let next := place ++ [name]
      match t.content? next with
      | some content => if rest.isEmpty then .ok content else .error .notDirectory
      | none => if t.isFolder next then t.walk next rest else .error .notFound

/-- A path that starts with a slash is followed from the top, any other from the folder of the
session. -/
def read (t : FileTree) (path : String) : FileContent :=
  if path.toList.any (·.toNat = 0) then .error .nulInPath
  else if path = "" then .error .notFound
  else if pathLimit < path.utf8ByteSize then .error .nameTooLong
  else t.walk (if path.toList.head? = some '/' then [] else t.here) (names path)

end FileTree
end Constituency
