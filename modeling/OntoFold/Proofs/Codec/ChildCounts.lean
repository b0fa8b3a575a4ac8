import OntoFold.Proofs.Arena.Encoding
import OntoFold.Proofs.Rewriting.Flaws

/-!
# Children of well-formed phrases

What a check of an axiom asks for at any depth can be read off the encoding: some kinds of nodes
need children, and an axiom is well formed when every node of its encoding has as many as it needs.
A check descends into operands, fillers and data ranges only. Nothing is missed, because the other
parts of a phrase stand for kinds of nodes that need no children.

* `Phrase.leastChildren`: the number of children that a node needs.
* `Tree.supplied_encode`: encodings of phrases without flaws.
* `Arena.supplied_ofPhrase`: the same in arenas.
-/

namespace OntoFold

namespace Phrase

/-- The least number of children of a node with the phrase. A disjoint union has the class that it
defines as a child, apart from two disjuncts. -/
def leastChildren : Phrase → Nat
  | .statement (.equivalent _) | .statement (.disjoint _) => 2
  | .statement (.disjointUnion ..) => 3
  | .term (.classExpression (.combined ..)) | .term (.dataRange (.combined ..)) => 2
  | .term (.classExpression (.oneOf _)) | .term (.dataRange (.oneOf _)) => 1
  | _ => 0

/-- A check that applies to the phrase finds nothing. -/
def Flawless : Phrase → Prop
  | .statement ax => ax.WellFormed
  | .term (.classExpression e) => e.flaw? = none
  | .term (.dataRange range) => range.flaw? = none
  | _ => True

/-- A phrase has the parts it needs, and its parts have no flaws. -/
def PartsFlawless (p : Phrase) : Prop :=
  p.leastChildren ≤ p.parts.length ∧ ∀ l ∈ p.parts, l.phrase.Flawless

end Phrase

/-! ## Flaws of parts -/

theorem DataRange.firstFlaw?_eq_none {ranges : List DataRange} :
    firstFlaw? ranges = none ↔ ∀ range ∈ ranges, range.flaw? = none := by
  induction ranges with
  | nil => simp [firstFlaw?]
  | cons range ranges ih => simp [firstFlaw?, ih]

theorem DataRange.flaw?_eq_none_iff (range : DataRange) :
    range.flaw? = none ↔ range.phrase.PartsFlawless := by
  cases range with
  | combined connective ranges =>
    simp [flaw?, Flaw.unless_eq_none, firstFlaw?_eq_none, Phrase.PartsFlawless,
      Phrase.leastChildren, Phrase.parts, Term.parts, parts, phrase, Phrase.Flawless]
  | _ =>
    simp [flaw?, Flaw.unless_eq_none, Phrase.PartsFlawless, Phrase.leastChildren, Phrase.parts,
      Term.parts, parts, phrase, Phrase.Flawless, Nat.one_le_iff_ne_zero]

theorem ClassExpression.flaw?_eq_none_iff (e : ClassExpression) :
    e.flaw? = none ↔ (Phrase.ofClass e).PartsFlawless := by
  rw [flaw?_eq_none]
  cases e with
  | cardinality bound count property filler =>
    cases filler <;>
      simp [ownFlaw?, operands, Phrase.PartsFlawless, Phrase.leastChildren, Phrase.parts,
        Term.parts, parts, ObjectProperty.phrase, Phrase.Flawless]
  | dataCardinality bound count property range =>
    cases range <;>
      simp [ownFlaw?, operands, Phrase.PartsFlawless, Phrase.leastChildren, Phrase.parts,
        Term.parts, parts, DataRange.phrase, Phrase.Flawless]
  | _ =>
    simp [ownFlaw?, operands, Flaw.unless_eq_none, Phrase.PartsFlawless, Phrase.leastChildren,
      Phrase.parts, Term.parts, parts, ObjectProperty.phrase, DataRange.phrase, Phrase.Flawless,
      Nat.one_le_iff_ne_zero]

theorem Axiom.wellFormed_iff_parts (ax : Axiom) :
    ax.WellFormed ↔ (Phrase.statement ax).PartsFlawless := by
  rw [wellFormed_iff]
  cases ax <;>
    simp [topFlaw?, operands, Flaw.unless_eq_none, Phrase.PartsFlawless, Phrase.leastChildren,
      Phrase.parts, parts, Phrase.Flawless, ClassExpression.flaw?]

/-- A phrase has no flaw when it has the parts it needs and they have no flaws. -/
theorem Phrase.flawless_iff (p : Phrase) : p.Flawless ↔ p.PartsFlawless := by
  cases p with
  | statement ax => exact ax.wellFormed_iff_parts
  | term t =>
    cases t with
    | classExpression e => exact e.flaw?_eq_none_iff
    | dataRange range => exact range.flaw?_eq_none_iff
    | objectProperty property =>
      cases property <;>
        simp [Flawless, PartsFlawless, leastChildren, parts, Term.parts, ObjectProperty.phrase]
    | _ => simp [Flawless, PartsFlawless, leastChildren, parts, Term.parts]
  | _ => simp [Flawless, PartsFlawless, leastChildren, parts, ObjectProperty.phrase]

/-! ## Encodings -/

/-- Every node has the children it needs. -/
def Tree.Supplied (t : Tree Label) : Prop :=
  ∀ s ∈ t.subtrees, s.label.phrase.leastChildren ≤ s.below.heads.length

theorem Tree.supplied_encode_iff (p : Phrase) (position : Option Position) :
    (p.encode position).Supplied ↔
      p.leastChildren ≤ p.parts.length ∧ ∀ l ∈ p.parts, l.encode.Supplied := by
  rw [Supplied, subtrees, List.forall_mem_cons]
  refine and_congr (by rw [← Phrase.heads_branches]; rfl) ?_
  constructor
  · exact fun h l hl s hs => h s (Phrase.mem_subtrees_branches.2 ⟨l, hl, hs⟩)
  · intro h s hs
    obtain ⟨l, hl, hInside⟩ := Phrase.mem_subtrees_branches.1 hs
    exact h l hl s hInside

/-- The encoding of a phrase has nowhere too few children when the phrase has no flaw, and only
then. -/
theorem Tree.supplied_encode (p : Phrase) (position : Option Position) :
    (p.encode position).Supplied ↔ p.Flawless := by
  induction p using Phrase.parts_induction generalizing position with
  | step p ih =>
    rw [supplied_encode_iff, p.flawless_iff, Phrase.PartsFlawless]
    exact and_congr_right fun _ => forall₂_congr fun l hl => ih l hl l.position

namespace Arena

/-- Every node has the children it needs. -/
def Supplied (a : Arena) : Prop :=
  ∀ id n, a.get? id = some n → n.label.phrase.leastChildren ≤ n.children.length

theorem Represents.supplied_iff {a : Arena} {t : Tree (NodeId × Label)} (h : a.Represents t) :
    a.Supplied ↔ (t.map Prod.snd).Supplied := by
  have hCounts : ∀ f : Forest (NodeId × Label), (f.map Prod.snd).heads.length = f.roots.length := by
    intro f
    rw [Forest.heads_map, List.length_map, Forest.roots, List.length_map]
  constructor
  · intro hSupplied s hs
    rw [Tree.subtrees_map, List.mem_map] at hs
    obtain ⟨r, hr, rfl⟩ := hs
    obtain ⟨q, hq⟩ := h.get? hr
    rw [Tree.below_map, hCounts]
    exact hSupplied _ _ hq
  · intro hSupplied id n hGet
    obtain ⟨below, hs, hChildren⟩ := h.exists_subtree hGet
    rw [hChildren, ← hCounts]
    exact hSupplied _ (Tree.map_mem_subtrees Prod.snd hs)

theorem supplied_ofPhrase (p : Phrase) (position : Option Position) :
    ∃ a, ofPhrase p position = .ok a ∧ (a.Supplied ↔ p.Flawless) := by
  obtain ⟨t, a, hOk, hMap, hRep⟩ := ofPhrase_represents p position
  exact ⟨a, hOk, by rw [hRep.supplied_iff, hMap, Tree.supplied_encode]⟩

end Arena

end OntoFold
