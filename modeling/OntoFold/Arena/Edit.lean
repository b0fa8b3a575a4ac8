import OntoFold.Arena.View

/-!
# Editing an arena

Changing labels, replacing a subtree in place and removing one.
-/

namespace OntoFold

namespace Arena

def setPhrase (a : Arena) (id : NodeId) (p : Phrase) : Except Fault Arena :=
  a.modify id fun n => { n with label := { n.label with phrase := p } }

def setPosition (a : Arena) (id : NodeId) (position : Option Position) : Except Fault Arena :=
  a.modify id fun n => { n with label := { n.label with position := position } }

/-! ## Removal -/

/-- The number of links from nodes to their children. -/
def linkCount (a : Arena) : Nat :=
  a.slots.toList.foldr (fun n total => (n.map fun n => n.children.length).getD 0 + total) 0

/-- Vacates the slots of the trees at some addresses, a node before its children and later
children first. -/
def vacateAll : Nat → List NodeId → Arena → Arena
  | 0, _, a => a
  | _, [], a => a
  | fuel + 1, id :: ids, a =>
    match a.get? id with
    | none => vacateAll fuel ids a
    | some n =>
      vacateAll fuel (n.children.reverse ++ ids)
        { a.setSlot id none with free := id :: a.free, live := a.live - 1 }

/-- Vacates the slots of the tree at an address; its parent still lists it. -/
def vacate (a : Arena) (id : NodeId) : Arena := vacateAll (a.linkCount + 1) [id] a

/-- Removes the tree at an address. -/
def removeChild (a : Arena) (id : NodeId) : Except Fault Arena := do
  match (← a.node id).parent with
  | none => .error (.rootDetached id)
  | some parent =>
    let a ← a.modify parent fun n => { n with children := n.children.filter (· ≠ id) }
    return a.vacate id

/-! ## Replacement -/

/-- Adds a tree as the last child of a node. -/
def graft (a : Arena) (parent : NodeId) (t : Tree Label) : Except Fault (NodeId × Arena) := do
  let (id, a) ← a.addChild parent t.label
  return (id, ← plant id t.below a)

/-- Moves the last child of a node, which is the given one, to a place before it. -/
def moveLast (a : Arena) (parent id place : Nat) : Except Fault Arena := do
  let n ← a.node parent
  if n.children.getLast? ≠ some id then
    .error .misplacedGraft
  else if n.children.length ≤ place + 1 then
    .error .missingPlace
  else
    return a.setSlot parent (some { n with children := n.children.dropLast.set place id })

/-- Puts a copy of another tree in place of the tree at an address. The root is replaced by the
other arena as a whole. -/
def replaceSubtree (a : Arena) (id : NodeId) (other : Arena) : Except Fault (NodeId × Arena) := do
  match (← a.node id).parent with
  | none => return (other.root, other)
  | some parent =>
    let some place := (← a.node parent).children.idxOf? id
      | .error (.missingChild id)
    let (copy, a) ← (a.vacate id).graft parent (← other.tree)
    return (copy, ← a.moveLast parent copy place)

end Arena

end OntoFold
