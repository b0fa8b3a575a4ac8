import OntoFold.Proofs.Arena.Encoding
import OntoFold.Proofs.Arena.Soundness
import OntoFold.Proofs.Order.Grouping
import OntoFold.Proofs.Rewriting.Terms
import OntoFold.Tree.Buckets

/-!
# Nesting in encodings

The tree at a node of an encoding is as large as the encoding of the phrase there, and it contains
the trees of all nodes below. So sizes descend strictly along the links of an encoding: equal
phrases never stand one below the other, and class expressions of one size never contain each other.

* `Arena.Encodes.treeAt_size`: the size of the tree at a node.
* `Arena.Encodes.size_lt_of_below`: sizes along the links.
* `Arena.sizes_descend`: both in encodings, and what follows for groups of equal size.
-/

namespace OntoFold

/-! ## Class expressions of equal size -/

/-- Of two expressions as large as each other none is nested inside the other one. -/
theorem ClassExpression.not_mem_nested_of_size_eq {e f : ClassExpression}
    (hSize : e.size = f.size) (hNe : e ≠ f) : e ∉ f.nested := by
  intro hNested
  rw [nested, SortedSet.mem_ofList, mem_positions_iff] at hNested
  rcases hNested with hSame | ⟨o, ho, hInside⟩
  · exact hNe hSame
  · have := size_lt_of_mem_positions ho hInside
    omega

/-- A group holds the given expressions of its size. -/
theorem hasMember_sizeBuckets {es : List ClassExpression} {size : Nat} {e : ClassExpression} :
    (sizeBuckets es).HasMember size e ↔ e ∈ es ∧ e.size = size := SortedMap.mem_groupBy

/-! ## Along the links -/

namespace Arena

variable {a : Arena} {l : Label} {id upper lower : NodeId} {n : Node}

/-- The encoding of a phrase has as many nodes as the phrase has positions. -/
theorem size_ofPhrase (p : Phrase) (position : Option Position) :
    ∃ a, ofPhrase p position = .ok a ∧ a.size = p.size := by
  obtain ⟨a, hOk, hEncodes⟩ := ofPhrase_encodes p position
  exact ⟨a, hOk, hEncodes.size⟩

namespace Encodes

/-- The tree at a node is as large as the phrase of the node. -/
theorem treeAt_size (h : a.Encodes l) (hGet : a.get? id = some n) :
    ∃ s, a.treeAt id = .ok s ∧ s.size = n.label.phrase.size := by
  obtain ⟨t, hRep, rfl, hFaithful⟩ := h
  obtain ⟨below, hs, -⟩ := hRep.exists_subtree hGet
  refine ⟨_, hRep.treeAt hs, ?_⟩
  rw [← Tree.size_map Prod.snd]
  exact (hFaithful.of_mem_subtrees (Tree.map_mem_subtrees Prod.snd hs)).size_eq

/-- What stands below a node holds a smaller phrase. -/
theorem size_lt_of_below (h : a.Encodes l) (hGet : a.get? upper = some n)
    (hBelow : a.Below upper lower) :
    ∃ m, a.get? lower = some m ∧ m.label.phrase.size < n.label.phrase.size := by
  obtain ⟨t, hRep, rfl, hFaithful⟩ := h
  obtain ⟨below, hs, -⟩ := hRep.exists_subtree hGet
  obtain ⟨label, inner, hr⟩ := Forest.mem_ids_iff.1 ((hRep.below_iff hs).1 hBelow)
  obtain ⟨q, hq⟩ := hRep.get? (Tree.subtrees_trans hs hr)
  refine ⟨_, hq, ?_⟩
  apply (hFaithful.of_mem_subtrees (Tree.map_mem_subtrees Prod.snd hs)).size_lt
  rw [Tree.below_map, Forest.toList_map]
  exact List.mem_map_of_mem (Forest.mem_toList_iff.2 ⟨inner, hr⟩)

end Encodes

/-- In the encoding of a phrase, the tree at a node has as many nodes as the encoding of the phrase
there, and every node below holds another phrase with a smaller encoding. Groups of class
expressions with encodings of equal size hold no expression that is nested inside another one of
the group. -/
theorem sizes_descend :
    (∀ p : Phrase, ∃ a, ofPhrase p none = .ok a ∧ ∀ upper n, a.get? upper = some n →
      ∃ s b, a.treeAt upper = .ok s ∧ ofPhrase n.label.phrase none = .ok b ∧ s.size = b.size ∧
        ∀ lower, a.Below upper lower →
          ∃ m c, a.get? lower = some m ∧ ofPhrase m.label.phrase none = .ok c ∧
            c.size < b.size ∧ m.label.phrase ≠ n.label.phrase) ∧
    ∀ es : List ClassExpression,
      (∀ size e, (sizeBuckets es).HasMember size e ↔
        e ∈ es ∧ ∃ b, ofPhrase (.ofClass e) none = .ok b ∧ b.size = size) ∧
      ∀ size e f, (sizeBuckets es).HasMember size e → (sizeBuckets es).HasMember size f → e ≠ f →
        e ∉ f.nested := by
  constructor
  · intro p
    obtain ⟨a, hOk, hEncodes⟩ := ofPhrase_encodes p none
    refine ⟨a, hOk, fun upper n hUpper => ?_⟩
    obtain ⟨s, hRead, hTree⟩ := hEncodes.treeAt_size hUpper
    obtain ⟨b, hb, hSize⟩ := size_ofPhrase n.label.phrase none
    refine ⟨s, b, hRead, hb, hTree.trans hSize.symm, fun lower hBelow => ?_⟩
    obtain ⟨m, hLower, hLt⟩ := hEncodes.size_lt_of_below hUpper hBelow
    obtain ⟨c, hc, hSmaller⟩ := size_ofPhrase m.label.phrase none
    refine ⟨m, c, hLower, hc, by omega, fun hSame => ?_⟩
    rw [hSame] at hLt
    exact Nat.lt_irrefl _ hLt
  · intro es
    constructor
    · intro size e
      obtain ⟨b, hb, hSize⟩ := size_ofPhrase (.ofClass e) none
      rw [hasMember_sizeBuckets, hb]
      simp only [Except.ok.injEq, exists_eq_left', hSize]
      rfl
    · intro size e f he hf hNe
      have hEqual := (hasMember_sizeBuckets.1 he).2.trans (hasMember_sizeBuckets.1 hf).2.symm
      exact ClassExpression.not_mem_nested_of_size_eq hEqual hNe

end Arena

end OntoFold
