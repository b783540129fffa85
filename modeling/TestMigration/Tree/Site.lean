import TestMigration.Tree.Node

/-!
# Sites

A site is a node together with the nodes above it, nearest first, so that a rule can look up as well
as down. `Node.sites` lists all sites of a tree from the top down and from left to right.
-/

namespace TestMigration

/-- A node with its ancestors, nearest first. -/
structure Site where
  node : Node
  above : List Node := []
deriving Repr, Inhabited

namespace Site

def kind (s : Site) : Kind := s.node.kind

def role (s : Site) : Role := s.node.role

def span (s : Site) : Span := s.node.span

def text (s : Site) (source : Text) : String := s.node.text source

def location (s : Site) (source : Text) : Location := s.node.location source

def parent? (s : Site) : Option Site :=
  match s.above with
  | [] => none
  | p :: rest => some ⟨p, rest⟩

/-- The node above, if it is of the kind. -/
def parentOf? (s : Site) (k : Kind) : Option Site := s.parent?.filter (·.kind == k)

/-- The site of a child of the node. -/
def down (s : Site) (child : Node) : Site := ⟨child, s.node :: s.above⟩

def children (s : Site) : List Site := s.node.children.map s.down

/-- The sites right below that are no comments. -/
def parts (s : Site) : List Site := s.node.parts.map s.down

/-- The first site below that plays the role. -/
def child? (s : Site) (r : Role) : Option Site := (s.node.child? r).map s.down

end Site

mutual

/-- All sites of a tree whose top has the given ancestors. -/
def Node.sitesBelow (above : List Node) : Node → List Site
  | .mk r k s cs => ⟨.mk r k s cs, above⟩ :: Node.sitesOfAll (.mk r k s cs :: above) cs

/-- All sites of the trees in a list of siblings. -/
def Node.sitesOfAll (above : List Node) : List Node → List Site
  | [] => []
  | n :: rest => n.sitesBelow above ++ Node.sitesOfAll above rest

end

def Node.sites (n : Node) : List Site := n.sitesBelow []

/-- All sites of the tree below a site, itself first. -/
def Site.sites (s : Site) : List Site := s.node.sitesBelow s.above

end TestMigration
