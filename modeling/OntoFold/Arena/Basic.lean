import OntoFold.Fault
import OntoFold.Tree.Decoding

/-!
# Arenas

A syntax tree whose nodes can be addressed and edited in place. Nodes live in numbered slots;
the slots of removed nodes are kept on a free list and given out again, the last one freed
first. Every node knows its parent and the list of its children.

This module holds the look-up and the growth of an arena: `Arena.addChild`, and
`Arena.plant`, which adds a whole forest below a node.
-/

namespace OntoFold

/-- A node of an arena. -/
structure Node where
  label : Label
  parent : Option NodeId
  children : List NodeId

structure Arena where
  slots : Array (Option Node)
  /-- The vacated slots, the last one first. -/
  free : List NodeId
  root : NodeId
  /-- The number of occupied slots. -/
  live : Nat

namespace Arena

/-- An arena that holds only a root. -/
def single (label : Label) : Arena := ⟨#[some ⟨label, none, []⟩], [], 0, 1⟩

/-! ## Looking nodes up -/

def get? (a : Arena) (id : NodeId) : Option Node := a.slots[id]?.join

def node (a : Arena) (id : NodeId) : Except Fault Node :=
  match a.get? id with
  | some n => .ok n
  | none => .error (.missingNode id)

/-- Puts a node into a slot. -/
def setSlot (a : Arena) (id : NodeId) (n : Option Node) : Arena :=
  { a with slots := a.slots.setIfInBounds id n }

/-- Changes the node at an address. -/
def modify (a : Arena) (id : NodeId) (f : Node → Node) : Except Fault Arena := do
  let n ← a.node id
  return a.setSlot id (some (f n))

/-! ## Growing -/

/-- Gives a new node the slot freed last, or a fresh one. -/
def alloc (a : Arena) (n : Node) : NodeId × Arena :=
  match a with
  | ⟨slots, [], root, live⟩ => (slots.size, ⟨slots.push (some n), [], root, live + 1⟩)
  | ⟨slots, id :: free, root, live⟩ =>
    (id, ⟨slots.setIfInBounds id (some n), free, root, live + 1⟩)

/-- Adds a node as the last child of another one. -/
def addChild (a : Arena) (parent : NodeId) (label : Label) : Except Fault (NodeId × Arena) := do
  let (id, a) := a.alloc ⟨label, some parent, []⟩
  let a ← a.modify parent fun n => { n with children := n.children ++ [id] }
  return (id, a)

/-- Adds a forest below a node. The first trees get their roots before any of them grows; then
they grow from the last to the first. -/
def plant (parent : NodeId) : Forest Label → Arena → Except Fault Arena
  | .nil, a => .ok a
  | .cons label below rest, a => do
    let (id, a) ← a.addChild parent label
    let a ← plant parent rest a
    plant id below a

/-- A tree in an arena of its own. -/
def ofTree (t : Tree Label) : Except Fault Arena := plant 0 t.below (single t.label)

/-- The encoding of a phrase in an arena of its own. -/
def ofPhrase (p : Phrase) (position : Option Position) : Except Fault Arena :=
  ofTree (p.encode position)

end Arena

end OntoFold
