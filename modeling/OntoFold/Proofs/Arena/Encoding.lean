import OntoFold.Proofs.Arena.Growth
import OntoFold.Proofs.Codec.Faithful

/-!
# Encodings in arenas

An arena encodes a label when the tree it represents is faithful and has that label on top.
Then every node stands for the phrase it holds, and the arena is as large as its phrase.

* `Arena.Encodes.decodeAt`: every node stands for the phrase it holds.
* `Arena.decode_ofPhrase`: encoding and decoding are inverse, at every node.
-/

namespace OntoFold

namespace Tree

theorem label_mem_toList {α : Type u} {s t : Tree α} (h : s ∈ t.subtrees) :
    s.label ∈ t.toList := by
  rw [subtrees, List.mem_cons] at h
  rcases h with rfl | h
  · exact List.mem_cons_self
  · exact List.mem_cons_of_mem _ (Forest.mem_toList_iff.2 ⟨_, h⟩)

theorem exists_subtree_of_mem {α : Type u} {x : α} {t : Tree α} (h : x ∈ t.toList) :
    ∃ s ∈ t.subtrees, s.label = x := by
  rcases List.mem_cons.1 h with rfl | h
  · exact ⟨t, List.mem_cons_self, rfl⟩
  · obtain ⟨below, hMem⟩ := Forest.mem_toList_iff.1 h
    exact ⟨_, List.mem_cons_of_mem _ hMem, rfl⟩

end Tree

namespace Arena

/-- The arena represents a faithful tree with the given label on top. -/
def Encodes (a : Arena) (l : Label) : Prop :=
  ∃ t : Tree (NodeId × Label), a.Represents t ∧ t.label.2 = l ∧ (t.map Prod.snd).Faithful

variable {a : Arena} {l : Label}

namespace Encodes

theorem tree (h : a.Encodes l) : ∃ t, a.tree = .ok t ∧ t.label = l ∧ t.Faithful := by
  obtain ⟨t, hRep, hLabel, hFaithful⟩ := h
  exact ⟨t.map Prod.snd, hRep.tree, hLabel, hFaithful⟩

theorem decode (h : a.Encodes l) (hl : l.phrase.Canonical) : a.decode = .ok l.phrase := by
  obtain ⟨t, hRep, rfl, hFaithful⟩ := h
  rw [hRep.decode, hFaithful.decode hl]
  rfl

theorem size (h : a.Encodes l) : a.size = l.phrase.size := by
  obtain ⟨t, hRep, rfl, hFaithful⟩ := h
  rw [hRep.size, ← Tree.size_map Prod.snd]
  exact hFaithful.size_eq

/-- Every node stands for the phrase it holds. -/
theorem decodeAt (h : a.Encodes l) (hl : l.phrase.Canonical) {id : NodeId} {n : Node}
    (hGet : a.get? id = some n) : a.decodeAt id = .ok n.label.phrase := by
  obtain ⟨t, hRep, rfl, hFaithful⟩ := h
  obtain ⟨below, hs, -⟩ := hRep.exists_subtree hGet
  have hMem := Tree.map_mem_subtrees Prod.snd hs
  have hCanonical := hFaithful.canonical hl (Tree.label_mem_toList hMem)
  rw [hRep.decodeAt hs, (hFaithful.of_mem_subtrees hMem).decode hCanonical]
  rfl

end Encodes

theorem ofPhrase_encodes (p : Phrase) (position : Option Position) :
    ∃ a, ofPhrase p position = .ok a ∧ a.Encodes ⟨p, position⟩ := by
  obtain ⟨t, a, hOk, hMap, hRep⟩ := ofPhrase_represents p position
  exact ⟨a, hOk, t, hRep, congrArg Tree.label hMap, hMap ▸ Tree.faithful_encode ⟨p, position⟩⟩

/-- The tree at a node of an encoding is the encoding of the phrase there. -/
theorem treeAt_ofPhrase {p : Phrase} {position : Option Position} {a : Arena}
    (hOk : ofPhrase p position = .ok a) {id : NodeId} {n : Node} (hGet : a.get? id = some n) :
    (a.treeAt id).map (Tree.map Prod.snd) = .ok n.label.encode := by
  obtain ⟨t, b, hOk', hMap, hRep⟩ := ofPhrase_represents p position
  obtain rfl : a = b := Except.ok.inj (hOk.symm.trans hOk')
  obtain ⟨below, hs, -⟩ := hRep.exists_subtree hGet
  have hMem := Tree.map_mem_subtrees Prod.snd hs
  rw [hMap, Tree.subtrees, List.mem_cons] at hMem
  have hEncode : (⟨n.label, below.map Prod.snd⟩ : Tree Label) = n.label.encode := by
    rcases hMem with hRoot | hMem
    · have hLabel : n.label = ⟨p, position⟩ := congrArg Tree.label hRoot
      exact hRoot.trans (congrArg Label.encode hLabel.symm)
    · exact congrArg (Tree.mk n.label) (Phrase.below_eq_branches hMem)
  rw [hRep.treeAt hs, Except.map, ← hEncode]
  rfl

/-- Decoding undoes encoding, for the whole tree and at every node: what stands below a node is
the encoding of the phrase the node holds. -/
theorem decode_ofPhrase {p : Phrase} (h : p.Canonical) (position : Option Position) :
    ∃ a, ofPhrase p position = .ok a ∧ a.decode = .ok p ∧
      ∀ id n, a.get? id = some n → a.decodeAt id = .ok n.label.phrase ∧
        ∃ b, ofPhrase n.label.phrase n.label.position = .ok b ∧
          b.tree = (a.treeAt id).map (Tree.map Prod.snd) := by
  obtain ⟨a, hOk, hEncodes⟩ := ofPhrase_encodes p position
  refine ⟨a, hOk, hEncodes.decode h, fun id n hGet => ⟨hEncodes.decodeAt h hGet, ?_⟩⟩
  obtain ⟨t, b, hOkNode, hMap, hRep⟩ := ofPhrase_represents n.label.phrase n.label.position
  refine ⟨b, hOkNode, ?_⟩
  rw [hRep.tree, hMap, treeAt_ofPhrase hOk hGet]
  rfl

/-- A disjoint union over an unqualified restriction and an empty intersection. -/
theorem decode_ofPhrase_disjointUnion :
    let p : Phrase := .statement (.disjointUnion ⟨"U"⟩
      [.combined .intersection [], .cardinality .exact 3 (.inverse ⟨"r"⟩) none])
    p.Canonical ∧ ∃ a, ofPhrase p none = .ok a ∧ a.decode = .ok p ∧
      ∀ id n, a.get? id = some n → a.decodeAt id = .ok n.label.phrase ∧
        ∃ b, ofPhrase n.label.phrase n.label.position = .ok b ∧
          b.tree = (a.treeAt id).map (Tree.map Prod.snd) := by
  intro p
  have hCanonical : p.Canonical := by decide +kernel
  exact ⟨hCanonical, decode_ofPhrase hCanonical none⟩

end Arena

end OntoFold
