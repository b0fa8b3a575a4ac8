import OntoFold.Arena.Edit
import OntoFold.Journal
import OntoFold.Order.SortedMap
import OntoFold.Term.Render

/-!
# Substitution in an arena

Every node that holds a target term is replaced by the tree of another term, which takes over
the position of the node. Afterwards the nodes above the replaced ones are brought up to date
from the deepest to the root: operands that became equal are merged, and the phrase of a node
is put together again from the phrases of its children.

The main definitions are `Arena.refreshAbove` and `Arena.substitute`.
-/

namespace OntoFold

namespace Arena

/-! ## Bringing ancestors up to date -/

/-- Adds a node and its ancestors to a set that is closed upwards. -/
def addUpwards (a : Arena) :
    Nat → NodeId → SortedSet NodeId → Except Fault (SortedSet NodeId)
  | 0, _, _ => .error .endlessLinks
  | fuel + 1, id, stale => do
    if id ∈ stale then
      return stale
    match (← a.node id).parent with
    | none => return stale.insert id
    | some parent => a.addUpwards fuel parent (stale.insert id)

/-- Some nodes and all their ancestors. -/
def upwardClosure (a : Arena) (ids : List NodeId) : Except Fault (SortedSet NodeId) :=
  ids.foldlM (fun stale id => a.addUpwards (a.slots.size + 1) id stale) ∅

/-- The nodes of a set, deeper ones first and, of equally deep ones, later addresses first. -/
def deepestFirst (a : Arena) (ids : SortedSet NodeId) : Except Fault (List NodeId) := do
  let depths ← ids.toList.mapM a.depth
  let byDepth := (depths.zip ids.toList).foldl (fun m (d, id) => m.extend d [id])
    (∅ : SortedMap Nat (SortedSet NodeId))
  return byDepth.toList.reverse.flatMap fun (_, ids) => ids.toList.reverse

/-- The children of a node that repeat the label of an earlier one. -/
def repeatedChildren (a : Arena) (id : NodeId) : Except Fault (List NodeId) := do
  let children := (← a.node id).children
  let labels ← children.mapM fun child => return (← a.node child).label
  let (_, repeated) := (children.zip labels).foldl
    (fun (seen, repeated) (child, label) =>
      if label ∈ seen then (seen, repeated ++ [child]) else (label :: seen, repeated))
    (([] : List Label), ([] : List NodeId))
  return repeated

/-- Removes the repeated children of a node whose children form a set. -/
def mergeChildren (a : Arena) (id : NodeId) : Except Fault Arena := do
  if (← a.node id).label.phrase.isSetValued then
    (← a.repeatedChildren id).foldlM removeChild a
  else
    return a

/-- Merges the children of a node and puts its phrase together again. -/
def refresh (a : Arena) (id : NodeId) : Except Fault Arena := do
  let a ← a.mergeChildren id
  let n ← a.node id
  let parts ← n.children.mapM fun child => return (← a.node child).label
  a.setPhrase id (n.label.phrase.assemble parts)

/-- Refreshes some nodes and all their ancestors. -/
def refreshAbove (a : Arena) (ids : List NodeId) : Except Fault Arena := do
  (← a.deepestFirst (← a.upwardClosure ids)).foldlM refresh a

/-! ## Substituting terms -/

/-- The outcome of replacing some nodes: the parents of the replaced ones, or nothing when the
root itself was replaced. -/
structure Replaced where
  arena : Arena
  parents : Option (List NodeId)

/-- Replaces the nodes at some addresses, which hold `target`, by trees of `replacement`. A class
defined by a disjoint union is replaced by named classes only. -/
def replaceAll (target replacement : Term) : List NodeId → List NodeId → Arena → Run Replaced
  | [], parents, a => return ⟨a, some parents⟩
  | id :: ids, parents, a => do
    let n ← a.node id
    let named := replacement.classExpression?.any ClassExpression.isNamed
    if n.label.position = some .definedClass ∧ ¬ named then
      .report .debug ("keeping disjoint union class " ++ target.render ++ ": " ++
        replacement.render ++ " is not a named class")
      replaceAll target replacement ids parents a
    else
      let fresh ← ofPhrase (.term replacement) n.label.position
      let (_, a) ← a.replaceSubtree id fresh
      match n.parent with
      | none => return ⟨a, none⟩
      | some parent => replaceAll target replacement ids (parents ++ [parent]) a

/-- Replaces every occurrence of `target` by `replacement` and gives the number of replaced
positions. Terms of different categories are not exchanged. -/
def substitute (a : Arena) (target replacement : Term) : Run (Nat × Arena) := do
  if !target.sameCategory replacement then
    .report .warn ("refusing to rewrite " ++ target.render ++ " with " ++ replacement.render ++
      ": different term kinds")
    return (0, a)
  let nodes := (← a.addressed).toList
  let found := (nodes.filter fun (_, label) => label.phrase = .term target).map Prod.fst
  if found.isEmpty then
    return (0, a)
  match ← replaceAll target replacement found [] a with
  | ⟨a, none⟩ => return (1, a)
  | ⟨a, some parents⟩ => return (parents.length, ← a.refreshAbove parents)

end Arena

end OntoFold
