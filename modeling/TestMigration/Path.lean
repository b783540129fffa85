import TestMigration.Text.Basic

/-!
# Paths

Paths with slashes, by their components. A single point counts only at the beginning of a relative
path; empty components never count.
-/

namespace TestMigration

namespace Path

/-- A part of a path. -/
inductive Component where
  | root
  | current
  | parent
  | normal (name : String)
deriving DecidableEq, Repr, Inhabited

namespace Component

def text : Component → String
  | root => "/"
  | current => "."
  | parent => ".."
  | normal name => name

end Component

def isAbsolute (path : String) : Bool := path.toList.head? == some '/'

/-- What a piece between slashes stands for. -/
def component? (piece : Text) : Option Component :=
  if piece.isEmpty || piece == ['.'] then none
  else if piece == ['.', '.'] then some .parent
  else some (.normal (String.ofList piece))

def components (path : String) : List Component :=
  let pieces := Text.splitAt '/' path.toList
  let rest := pieces.filterMap component?
  if isAbsolute path then .root :: rest
  else if pieces.head? == some ['.'] then .current :: rest
  else rest

def ofComponents : List Component → String
  | .root :: rest => "/" ++ String.intercalate "/" (rest.map Component.text)
  | cs => String.intercalate "/" (cs.map Component.text)

/-- The last component, if it is a name. -/
def fileName? (path : String) : Option String :=
  match (components path).getLast? with
  | some (.normal name) => some name
  | _ => none

/-- What follows the last point of the file name; a point at its beginning does not count. -/
def extension? (path : String) : Option String :=
  match fileName? path with
  | none => none
  | some name =>
    match (Text.splitAt '.' name.toList).reverse with
    | last :: before :: more =>
      if before.isEmpty && more.isEmpty then none else some (String.ofList last)
    | _ => none

def extension (path : String) : String := (extension? path).getD ""

/-- The first piece of a path and the pieces behind it, without those at the end that do not count. -/
def trimmedPieces (path : String) : Text × List Text :=
  match Text.splitAt '/' path.toList with
  | first :: rest => (first, trimEnd rest)
  | [] => ([], [])
where
  trimEnd (pieces : List Text) : List Text :=
    (pieces.reverse.dropWhile fun p => (component? p).isNone).reverse

/-- The path that pieces make. -/
def ofPieces (first : Text) (rest : List Text) : String :=
  if first.isEmpty && rest.isEmpty then "/"
  else String.ofList (rest.foldl (fun path piece => path ++ '/' :: piece) first)

/-- The path without its last component; none for the root and the empty path. -/
def parent? (path : String) : Option String :=
  match trimmedPieces path with
  | (first, []) => if first.isEmpty then none else some ""
  | (first, rest) => some (ofPieces first (trimmedPieces.trimEnd rest.dropLast))

/-- The path with an extension behind its file name, if it has one. -/
def addExtension (path ext : String) : String :=
  match fileName? path with
  | some _ =>
    let (first, rest) := trimmedPieces path
    ofPieces first rest ++ "." ++ ext
  | none => path

/-- `path` taken from the directory `dir`. -/
def join (dir path : String) : String :=
  if isAbsolute path || dir.isEmpty then path
  else if dir.toList.getLast? == some '/' then dir ++ path
  else dir ++ "/" ++ path

/-- The path and the directories above it, as far as the path names them; the number bounds them. -/
def ancestorsGo : Nat → String → List String
  | 0, path => [path]
  | n + 1, path =>
    match parent? path with
    | some up => path :: ancestorsGo n up
    | none => [path]

/-- The path and the directories above it, as far as the path names them. -/
def ancestors (path : String) : List String := ancestorsGo path.length path

/-! ### Order -/

namespace Component

/-- `a` comes before `b`: the root, the current and the parent directory, then names. -/
def before : Component → Component → Bool
  | normal a, normal b => a < b
  | a, b => rank a < rank b
where
  rank : Component → Nat
    | root => 0
    | current => 1
    | parent => 2
    | normal _ => 3

end Component

/-- The components `a` come before `b` or are the same, compared one by one. -/
def componentsLE : List Component → List Component → Bool
  | [], _ => true
  | _ :: _, [] => false
  | a :: as, b :: bs => if a == b then componentsLE as bs else a.before b

/-- A path put into a list that is ordered by components, in front of its equals. -/
def insertOrdered (path : String) : List String → List String
  | [] => [path]
  | other :: rest =>
    if componentsLE (components path) (components other) then path :: other :: rest
    else other :: insertOrdered path rest

/-- The paths ordered by components. -/
def sort (paths : List String) : List String := paths.foldr insertOrdered []

end Path

end TestMigration
