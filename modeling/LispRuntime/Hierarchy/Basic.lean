import LispRuntime.Hierarchy.Tag

/-! A hierarchy holds direct parent links between tags, and beside them two
tables that are derived from the links: everything above a tag, and everything
below it. A new link mends the two tables where they change; a removed link
has them built anew.

Both ways of keeping the tables walk the links, so they take as fuel a bound
on the length of a path, and answer nothing when the fuel does not suffice.
There is always enough of it while the links have no cycle. -/

namespace LispRuntime

structure Hierarchy (α : Type) where
  parents : TagTable α (TagSet α)
  ancestors : TagTable α (TagSet α)
  descendants : TagTable α (TagSet α)
deriving Repr

namespace Hierarchy

variable {α : Type}

def empty : Hierarchy α := ⟨[], [], []⟩

instance : Inhabited (Hierarchy α) := ⟨empty⟩

def parentsOf (hierarchy : Hierarchy α) (tag : Tag α) : TagSet α :=
  (hierarchy.parents.lookup tag).getD []

def ancestorsOf (hierarchy : Hierarchy α) (tag : Tag α) : TagSet α :=
  (hierarchy.ancestors.lookup tag).getD []

def descendantsOf (hierarchy : Hierarchy α) (tag : Tag α) : TagSet α :=
  (hierarchy.descendants.lookup tag).getD []

/-- The tags that have this one as a direct parent. -/
def childrenOf (hierarchy : Hierarchy α) (tag : Tag α) : List (Tag α) :=
  (hierarchy.parents.filter fun entry => TagSet.has entry.2 tag).map Prod.fst

/-- How many tags have parents. -/
def size (hierarchy : Hierarchy α) : Nat := hierarchy.parents.length

def isEmpty (hierarchy : Hierarchy α) : Bool := hierarchy.parents.isEmpty

/-- Two hierarchies are the same when their links are. -/
def sameLinks (left right : Hierarchy α) : Bool :=
  left.parents.length == right.parents.length &&
    left.parents.all fun entry =>
      match right.parents.lookup entry.1 with
      | some set => TagSet.sameElements entry.2 set
      | none => false

/-! ## Is one tag a kind of another? -/

mutual
/-- Equal tags, a tag and one above it, and vectors of equal length that are
so element by element. -/
def isa (hierarchy : Hierarchy α) (child parent : Tag α) : Bool :=
  child.sameAs parent ||
    TagSet.has (hierarchy.ancestorsOf child) parent ||
    match child, parent with
    | .vector _ _ children, .vector _ _ parents =>
        hierarchy.allIsa children parents
    | _, _ => false

def allIsa (hierarchy : Hierarchy α) : List (Tag α) → List (Tag α) → Bool
  | [], [] => true
  | child :: children, parent :: parents =>
      hierarchy.isa child parent && hierarchy.allIsa children parents
  | _, _ => false
end

/-! ## New links -/

/-- The direct parents of a tag, and what the table has above each of them. -/
def aboveParents (hierarchy : Hierarchy α) (tag : Tag α) : TagSet α :=
  (hierarchy.parentsOf tag).foldl
    (fun set parent =>
      TagSet.insertAll (TagSet.insert set parent) (hierarchy.ancestorsOf parent))
    []

def setAncestors (hierarchy : Hierarchy α) (tag : Tag α) (set : TagSet α) :
    Hierarchy α :=
  { hierarchy with
    ancestors :=
      if set.isEmpty then hierarchy.ancestors.erase tag
      else hierarchy.ancestors.insert tag set }

/-- Mends the ancestors of a tag, then those of its children, and so on down. -/
def refreshAncestors : Nat → Hierarchy α → Tag α → Option (Hierarchy α)
  | 0, _, _ => none
  | fuel + 1, hierarchy, tag =>
      let mended := hierarchy.setAncestors tag (hierarchy.aboveParents tag)
      (mended.childrenOf tag).foldlM (refreshAncestors fuel) mended

def addDescendants (hierarchy : Hierarchy α) (ancestor : Tag α)
    (below : List (Tag α)) : Hierarchy α :=
  { hierarchy with
    descendants :=
      hierarchy.descendants.insert ancestor
        (TagSet.insertAll (hierarchy.descendantsOf ancestor) below) }

/-- Puts a tag and everything below it under each of its ancestors. -/
def refreshDescendants (hierarchy : Hierarchy α) (tag : Tag α) : Hierarchy α :=
  let subtree := TagSet.insert (hierarchy.descendantsOf tag) tag
  (hierarchy.ancestorsOf tag).foldl
    (fun hierarchy ancestor => hierarchy.addDescendants ancestor subtree)
    hierarchy

def addLink (hierarchy : Hierarchy α) (child parent : Tag α) : Hierarchy α :=
  { hierarchy with
    parents :=
      hierarchy.parents.insert child
        (TagSet.insert (hierarchy.parentsOf child) parent) }

/-- Why a link is turned down. -/
inductive Refusal where
  /-- Nothing is its own parent. -/
  | ownParent
  /-- The parent is already further up. -/
  | alreadyAncestor
  /-- The parent is below the child. -/
  | cyclic
deriving DecidableEq, Repr

/-- Makes one tag a direct child of another. A link that is already there stays
as it is. -/
def derive (hierarchy : Hierarchy α) (child parent : Tag α) :
    Option (Except Refusal (Hierarchy α)) :=
  if child.sameAs parent then some (.error .ownParent)
  else if TagSet.has (hierarchy.parentsOf child) parent then some (.ok hierarchy)
  else if TagSet.has (hierarchy.ancestorsOf child) parent then
    some (.error .alreadyAncestor)
  else if TagSet.has (hierarchy.ancestorsOf parent) child then
    some (.error .cyclic)
  else
    let linked := hierarchy.addLink child parent
    (refreshAncestors (linked.size + 1) linked child).map fun mended =>
      .ok (mended.refreshDescendants child)

/-! ## Removed links -/

/-- Every tag that a link mentions. -/
def nodes (hierarchy : Hierarchy α) : TagSet α :=
  TagSet.insertAll
    (TagSet.insertAll [] hierarchy.parents.keys)
    (hierarchy.parents.flatMap Prod.snd)

/-- Settles a tag if all of its parents are settled. -/
def settle (state : TagSet α × Hierarchy α) (tag : Tag α) : TagSet α × Hierarchy α :=
  let (settled, hierarchy) := state
  if TagSet.has settled tag then state
  else if TagSet.isSubsetOf (hierarchy.parentsOf tag) settled then
    let above := hierarchy.aboveParents tag
    (TagSet.insert settled tag,
      if above.isEmpty then hierarchy else hierarchy.setAncestors tag above)
  else state

/-- Goes over all tags until one pass settles nothing more. -/
def settleAll (tags : List (Tag α)) :
    Nat → TagSet α × Hierarchy α → Option (TagSet α × Hierarchy α)
  | 0, _ => none
  | fuel + 1, state =>
      let next := tags.foldl settle state
      if next.1.length = state.1.length then some next
      else settleAll tags fuel next

/-- Builds both tables from the links alone, parents before children. -/
def rebuild (hierarchy : Hierarchy α) : Option (Hierarchy α) := do
  let tags := hierarchy.nodes
  let (_, settled) ←
    settleAll tags (tags.length + 1) ([], ⟨hierarchy.parents, [], []⟩)
  return settled.ancestors.foldl
    (fun hierarchy entry =>
      entry.2.foldl
        (fun hierarchy ancestor => hierarchy.addDescendants ancestor [entry.1])
        hierarchy)
    settled

def removeLink (hierarchy : Hierarchy α) (child parent : Tag α) : Hierarchy α :=
  let remaining := TagSet.erase (hierarchy.parentsOf child) parent
  { hierarchy with
    parents :=
      if remaining.isEmpty then hierarchy.parents.erase child
      else hierarchy.parents.insert child remaining }

/-- Removes a direct link. Without one there is nothing to remove, and the
answer says so. -/
def underive (hierarchy : Hierarchy α) (child parent : Tag α) :
    Option (Bool × Hierarchy α) :=
  if TagSet.has (hierarchy.parentsOf child) parent then
    (hierarchy.removeLink child parent).rebuild.map (true, ·)
  else some (false, hierarchy)

end Hierarchy

end LispRuntime
