/-!
# Ordered names

Names without repetition, in the order of their characters.
-/

namespace TestMigration

/-- `name` put into an ordered list that may hold it already. -/
def insertName (name : String) : List String → List String
  | [] => [name]
  | other :: rest =>
    if name == other then other :: rest
    else if name < other then name :: other :: rest
    else other :: insertName name rest

/-- The names without repetition, in order. -/
def orderNames (names : List String) : List String := names.foldl (fun l n => insertName n l) []

end TestMigration
