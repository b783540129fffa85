import TestMigration.Path

/-!
# Files

The files below a working directory, as a tree of names. A path is followed piece by piece from the
working directory, so each directory on its way has to be there; nothing outside of the working
directory is known.
-/

namespace TestMigration

/-- What a file holds. -/
inductive Contents where
  | text (s : String)
  /-- Bytes that are no text. -/
  | binary (bytes : List UInt8)
deriving DecidableEq, Repr, Inhabited

namespace Contents

/-- The contents that bytes make: text if they are UTF-8. -/
def ofBytes (bytes : ByteArray) : Contents :=
  match String.fromUTF8? bytes with
  | some s => text s
  | none => binary bytes.toList

end Contents

/-- A file or a directory. -/
inductive FileTree where
  | file (contents : Contents)
  | directory (entries : List (String × FileTree))
deriving Repr, Inhabited

namespace FileTree

def isDirectory : FileTree → Bool
  | directory _ => true
  | file _ => false

def child? (name : String) : FileTree → Option FileTree
  | directory entries => entries.lookup name
  | file _ => none

/-- The tree that names lead to. -/
def get? : List String → FileTree → Option FileTree
  | [], t => some t
  | name :: rest, t => (t.child? name).bind (get? rest)

/-- The entries with one of them put in or replaced. -/
def setEntry (name : String) (t : FileTree) : List (String × FileTree) → List (String × FileTree)
  | [] => [(name, t)]
  | (other, old) :: rest =>
    if other == name then (name, t) :: rest else (other, old) :: setEntry name t rest

/-- The tree with another one put in where names lead to; missing directories are made. -/
def put : FileTree → List String → FileTree → FileTree
  | _, [], new => new
  | directory entries, name :: rest, new =>
    let old := (entries.lookup name).getD (directory [])
    directory (setEntry name (old.put rest new) entries)
  | file _, name :: rest, new => directory [(name, (directory []).put rest new)]

mutual

def fileCount : FileTree → Nat
  | file _ => 1
  | directory entries => fileCountAll entries

def fileCountAll : List (String × FileTree) → Nat
  | [] => 0
  | (_, t) :: rest => t.fileCount + fileCountAll rest

end

mutual

/-- The paths of a tree whose top is at `path`, without what `skip` says of a name and all below it. -/
def paths (skip : String → Bool) (path : String) : FileTree → List String
  | file _ => [path]
  | directory entries => path :: pathsAll skip path entries

def pathsAll (skip : String → Bool) (path : String) : List (String × FileTree) → List String
  | [] => []
  | (name, t) :: rest =>
    (if skip name then [] else t.paths skip (Path.join path name)) ++ pathsAll skip path rest

end

mutual

/-- The texts of a tree whose top is at `path`, each with its path. -/
def texts (path : String) : FileTree → List (String × String)
  | file (.text s) => [(path, s)]
  | file (.binary _) => []
  | directory entries => textsAll path entries

def textsAll (path : String) : List (String × FileTree) → List (String × String)
  | [] => []
  | (name, t) :: rest => t.texts (Path.join path name) ++ textsAll path rest

end

end FileTree

/-- Why a file cannot be read as text. -/
inductive ReadFailure where
  | missing
  | directory
  | undecodable
deriving DecidableEq, Repr, Inhabited

namespace ReadFailure

def message : ReadFailure → String
  | missing => "No such file or directory (os error 2)"
  | directory => "Is a directory (os error 21)"
  | undecodable => "stream did not contain valid UTF-8"

end ReadFailure

/-- Why a text cannot be written to a path. -/
inductive WriteFailure where
  | missing
  | directory
  | denied
deriving DecidableEq, Repr, Inhabited

namespace WriteFailure

def message : WriteFailure → String
  | missing => "No such file or directory (os error 2)"
  | directory => "Is a directory (os error 21)"
  | denied => "Permission denied (os error 13)"

end WriteFailure

/-- The files below a working directory. -/
structure Files where
  /-- The absolute path of the working directory. -/
  home : String
  tree : FileTree := .directory []
  /-- The names that lead to the files that may not be written. -/
  readOnly : List (List String) := []
deriving Repr, Inhabited

namespace Files

/-- One more piece of a path, followed from a place that is known by its names. -/
def follow (f : Files) (place : List String) (piece : Text) : Option (List String) := do
  let t ← f.tree.get? place
  guard t.isDirectory
  match Path.component? piece with
  | none => return place
  | some .parent => if place.isEmpty then none else return place.dropLast
  | some c =>
    let next := place ++ [c.text]
    let _ ← f.tree.get? next
    return next

/-- The names that a path leads to, if something is there. -/
def locate? (f : Files) (path : String) : Option (List String) :=
  if path.isEmpty then none
  else if Path.isAbsolute path then
    if Text.startsWith path.toList (f.home ++ "/") then
      ((Text.splitAt '/' path.toList).drop (Text.splitAt '/' f.home.toList).length).foldlM f.follow []
    else if path == f.home then some [] else none
  else (Text.splitAt '/' path.toList).foldlM f.follow []

/-- The file or directory at a path. -/
def get? (f : Files) (path : String) : Option FileTree :=
  (f.locate? path).bind fun names => f.tree.get? names

def holds (f : Files) (path : String) : Bool := (f.get? path).isSome

def isFile (f : Files) (path : String) : Bool :=
  match f.get? path with
  | some (.file _) => true
  | _ => false

def isDirectory (f : Files) (path : String) : Bool :=
  match f.get? path with
  | some (.directory _) => true
  | _ => false

/-- The one absolute path of what a path leads to. -/
def canonical? (f : Files) (path : String) : Option String :=
  (f.locate? path).map fun names => names.foldl (fun p name => p ++ "/" ++ name) f.home

def read (f : Files) (path : String) : Except ReadFailure String :=
  match f.get? path with
  | some (.file (.text s)) => .ok s
  | some (.file (.binary _)) => .error .undecodable
  | some (.directory _) => .error .directory
  | none => .error .missing

/-- The names of a file that is to be made at a path; its directory has to be there. -/
def newPlace? (f : Files) (path : String) : Option (List String) := do
  let name ← Path.fileName? path
  let dir ← Path.parent? path
  let place ← if dir.isEmpty then some [] else f.locate? dir
  let parent ← f.tree.get? place
  guard (parent.isDirectory && (f.tree.get? (place ++ [name])).isNone)
  return place ++ [name]

/-- The files with a text in place of the file that names lead to. -/
def put (f : Files) (place : List String) (text : String) : Files :=
  { f with tree := f.tree.put place (.file (.text text)) }

/-- The files after a text was written to a path: to the file there, or to a new one. -/
def write (f : Files) (path : String) (text : String) : Except WriteFailure Files :=
  match f.locate? path with
  | some place =>
    match f.tree.get? place with
    | some (.file _) => if f.readOnly.contains place then .error .denied else .ok (f.put place text)
    | _ => .error .directory
  | none =>
    match f.newPlace? path with
    | some place => .ok (f.put place text)
    | none => .error .missing

/-- The paths at and below a path, without what `skip` says of a name and all below it. -/
def walk (f : Files) (skip : String → Bool) (path : String) : List String :=
  match f.get? path with
  | some t => if skip ((Path.fileName? path).getD path) then [] else t.paths skip path
  | none => []

/-- The texts that differ from what was there before, with their paths. -/
def changesSince (f before : Files) : List (String × String) :=
  (f.tree.texts f.home).filter fun (path, text) => (before.read path).toOption != some text

end Files

end TestMigration
