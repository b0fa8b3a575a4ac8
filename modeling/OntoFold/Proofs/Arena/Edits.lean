import OntoFold.Proofs.Arena.Soundness

/-!
# Edits

The ways of changing an arena, as data: adding a node, changing a phrase or a position, replacing
a subtree by another arena and removing one. An edit whose address is in use goes through on an
arena that represents a tree, and what it leaves represents a tree again; only the root cannot be
removed. An edit whose address is not in use fails and names that address, unless it adds a node
below the slot that this very node takes.

* `Arena.Represents.edit`: edits at addresses in use.
* `Arena.Edit.run_dead`: edits at other addresses.
-/

namespace OntoFold

namespace Arena

variable {a : Arena} {id : NodeId} {t : Tree (NodeId × Label)} {e : Edit}

/-- A change of an arena at an address. -/
inductive Edit where
  | addChild (parent : NodeId) (label : Label)
  | setPhrase (id : NodeId) (phrase : Phrase)
  | setPosition (id : NodeId) (position : Option Position)
  | replaceSubtree (id : NodeId) (other : Arena)
  | removeChild (id : NodeId)

namespace Edit

/-- The address that an edit names. -/
def address : Edit → NodeId
  | addChild id _ | setPhrase id _ | setPosition id _ | replaceSubtree id _ | removeChild id => id

/-- What an edit leaves. -/
def run (a : Arena) : Edit → Except Fault Arena
  | addChild parent label => return (← a.addChild parent label).2
  | setPhrase id phrase => a.setPhrase id phrase
  | setPosition id position => a.setPosition id position
  | replaceSubtree id other => return (← a.replaceSubtree id other).2
  | removeChild id => a.removeChild id

/-- An arena that takes the place of a subtree is in order. -/
def Proper : Edit → Prop
  | replaceSubtree _ other => other.Sound
  | _ => True

/-- The edit adds a node below the slot that the node itself takes. -/
def BelowItself (a : Arena) : Edit → Prop
  | addChild parent _ => parent = a.nextSlot
  | _ => False

end Edit

/-! ## Addresses in use -/

/-- Without anything below it, a root is a tree. -/
theorem represents_single (l : Label) : (single l).Represents ⟨(0, l), .nil⟩ :=
  ⟨rfl, ⟨rfl, trivial, trivial⟩, tidy_single l⟩

/-- An edit at an address in use goes through, except for removing the root. -/
theorem Represents.edit (h : a.Represents t) (e : Edit) (hProper : e.Proper)
    (hLive : (a.get? e.address).isSome) (hRoot : e ≠ .removeChild a.root) :
    ∃ b u, e.run a = .ok b ∧ b.Represents u := by
  cases e with
  | addChild parent label =>
    obtain ⟨s, hs, rfl⟩ := h.exists_at hLive
    obtain ⟨id, b, hAdd, hb⟩ := h.addChild hs label
    refine ⟨b, _, ?_, hb⟩
    rw [Edit.run, hAdd]
    rfl
  | setPhrase id phrase =>
    obtain ⟨s, hs, rfl⟩ := h.exists_at hLive
    obtain ⟨b, hSet, hb⟩ := h.setPhrase hs phrase
    exact ⟨b, _, hSet, hb⟩
  | setPosition id position =>
    obtain ⟨s, hs, rfl⟩ := h.exists_at hLive
    obtain ⟨b, hSet, hb⟩ := h.setPosition hs position
    exact ⟨b, _, hSet, hb⟩
  | replaceSubtree id other =>
    obtain ⟨r, hr⟩ := Sound.represents hProper
    by_cases hId : id = a.root
    · -- The other arena takes the place of the whole arena.
      refine ⟨other, r, ?_, hr⟩
      rw [Edit.run, hId, h.root, h.replaceSubtree_root]
      rfl
    · obtain ⟨q, hq, s, hs, rfl⟩ := h.exists_child hLive hId
      obtain ⟨copy, b, hReplace, -, hb, -⟩ := h.replaceSubtree hq hs hr
      refine ⟨b, _, ?_, hb⟩
      rw [Edit.run, hReplace]
      rfl
  | removeChild id =>
    obtain ⟨q, hq, s, hs, rfl⟩ := h.exists_child hLive fun hId => hRoot (hId ▸ rfl)
    obtain ⟨b, hRemove, hb⟩ := h.removeChild hq (Forest.mem_roots_of_mem_trees hs)
    exact ⟨b, _, hRemove, hb⟩

/-- The root cannot be removed. -/
theorem Represents.removeChild_root (h : a.Represents t) :
    a.removeChild a.root = .error (.rootDetached a.root) := by
  rw [h.root, Arena.removeChild, node_eq_ok h.get?_root]
  rfl

/-! ## Addresses not in use -/

theorem node_eq_error (h : a.get? id = none) : a.node id = .error (.missingNode id) := by
  simp [node, h]

theorem modify_eq_error (h : a.get? id = none) (f : Node → Node) :
    a.modify id f = .error (.missingNode id) := by
  simp only [modify, node_eq_error h]
  rfl

theorem decodeAt_eq_error (h : a.get? id = none) : a.decodeAt id = .error (.missingNode id) := by
  simp only [decodeAt, Arena.treeAt, node_eq_error h]
  rfl

theorem replaceSubtree_eq_error (h : a.get? id = none) (other : Arena) :
    a.replaceSubtree id other = .error (.missingNode id) := by
  rw [replaceSubtree, node_eq_error h]
  rfl

theorem removeChild_eq_error (h : a.get? id = none) :
    a.removeChild id = .error (.missingNode id) := by
  rw [removeChild, node_eq_error h]
  rfl

/-- Adding a node looks the parent up after the node has its slot: a slot that is not in use is
noticed only when it is another one. -/
theorem addChild_eq_error (h : a.Represents t) (hDead : a.get? id = none) (hNext : id ≠ a.nextSlot)
    (l : Label) : a.addChild id l = .error (.missingNode id) := by
  obtain ⟨b, hAlloc, -, -, hOther, -⟩ := h.tidy.alloc ⟨l, some id, []⟩
  have hb : b.get? id = none := (hOther id hNext).trans hDead
  simp only [addChild, hAlloc, modify_eq_error hb]
  rfl

/-- Any other edit fails at an address that is not in use. -/
theorem Edit.run_dead (h : a.Represents t) (hDead : a.get? e.address = none)
    (hNext : ¬ e.BelowItself a) : e.run a = .error (.missingNode e.address) := by
  cases e with
  | addChild parent label =>
    simp only [address] at hDead ⊢
    rw [run, addChild_eq_error h hDead hNext]
    rfl
  | setPhrase id phrase => exact modify_eq_error hDead _
  | setPosition id position => exact modify_eq_error hDead _
  | replaceSubtree id other =>
    simp only [address] at hDead ⊢
    rw [run, replaceSubtree_eq_error hDead]
    rfl
  | removeChild id => exact removeChild_eq_error hDead

end Arena

end OntoFold
