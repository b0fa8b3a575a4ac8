import OntoFold.Arena.Basic

/-!
# The tree in an arena

An arena is read by following the lists of children. `Arena.forest` gives the trees at some
addresses together with the addresses of their nodes; the order of reading, decoding and
comparison are defined on what it gives.
-/

namespace OntoFold

namespace Arena

/-- The trees at some addresses. A tree has no more nodes than the arena has slots, which
bounds the links that are followed. -/
def forest (a : Arena) : Nat → List NodeId → Except Fault (Forest (NodeId × Label))
  | _, [] => .ok .nil
  | 0, _ :: _ => .error .endlessLinks
  | fuel + 1, id :: ids => do
    let n ← a.node id
    let below ← a.forest fuel n.children
    let rest ← a.forest fuel ids
    return .cons (id, n.label) below rest

/-- The tree at an address. -/
def treeAt (a : Arena) (id : NodeId) : Except Fault (Tree (NodeId × Label)) := do
  let n ← a.node id
  let below ← a.forest a.slots.size n.children
  return ⟨(id, n.label), below⟩

/-- The whole tree, with the addresses of its nodes. -/
def addressed (a : Arena) : Except Fault (Tree (NodeId × Label)) := a.treeAt a.root

/-- The whole tree. -/
def tree (a : Arena) : Except Fault (Tree Label) := return (← a.addressed).map Prod.snd

/-- The number of nodes. -/
def size (a : Arena) : Nat := a.live

/-- The addresses of the nodes, in the order of reading. -/
def preorder (a : Arena) : Except Fault (List NodeId) :=
  return (← a.addressed).toList.map Prod.fst

/-- What the tree at an address stands for. -/
def decodeAt (a : Arena) (id : NodeId) : Except Fault Phrase :=
  return ((← a.treeAt id).map Prod.snd).decode

/-- What the whole tree stands for. -/
def decode (a : Arena) : Except Fault Phrase := a.decodeAt a.root

/-- Whether two arenas hold trees with the same labels and the same order of children. -/
def sameStructure (a b : Arena) : Except Fault Bool := do
  if a.size ≠ b.size then
    return false
  return decide ((← a.tree) = (← b.tree))

/-! ## Upwards -/

/-- The ancestors of a node, the nearest first. -/
def ancestorsWithin (a : Arena) : Nat → NodeId → Except Fault (List NodeId)
  | 0, _ => .error .endlessLinks
  | fuel + 1, id => do
    let n ← a.node id
    match n.parent with
    | none => return []
    | some parent => return parent :: (← a.ancestorsWithin fuel parent)

/-- The number of links between a node and the root. -/
def depth (a : Arena) (id : NodeId) : Except Fault Nat :=
  return (← a.ancestorsWithin (a.slots.size + 1) id).length

end Arena

end OntoFold
