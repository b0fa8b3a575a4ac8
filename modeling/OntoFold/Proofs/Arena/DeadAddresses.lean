import OntoFold.Proofs.Arena.Scripts

/-!
# Addresses that are not in use

Whatever the edits before, an address that no node has is rejected: nothing is decoded there, no
label is changed, nothing is replaced or removed, and no node is added below it. There is one
exception. A new node gets its slot before its parent is looked up, so the parent may be the very
slot that the node takes, the one freed last or the first one behind all others. Then the node
becomes its own parent and its only child: it is counted, but it cannot be reached from the root.
As long as no edit does that, all edits that go through leave arenas in order.

* `Arena.Represents.addChild_nextSlot`: the node below itself.
* `Arena.guards_dead`: what is rejected, what is not, and what holds of all runs of edits.
-/

namespace OntoFold

open Relation (ReflTransGen)

namespace Arena

variable {a b : Arena} {id : NodeId} {t : Tree (NodeId × Label)}

/-- No node of an arena in order is a child of itself. -/
theorem Sound.not_lists_self (h : a.Sound) : ¬ a.Lists id id := by
  obtain ⟨t, ht⟩ := h.represents
  intro hLists
  obtain ⟨s, hs, rfl, hMem⟩ := ht.lists_iff.1 hLists
  exact ht.not_mem_below hs (Forest.mem_ids_of_mem_roots hMem)

namespace Represents

theorem get?_nextSlot (h : a.Represents t) : a.get? a.nextSlot = none := by
  by_contra hGet
  exact h.tidy.nextSlot_not_mem ((h.tidy.occupied _).1 (Option.isSome_iff_ne_none.2 hGet))

/-- A node below its own slot: the look-up of the parent finds the node itself. What is read from
the root stays the same, the count of nodes does not. -/
theorem addChild_nextSlot (h : a.Represents t) (l : Label) :
    ∃ b, a.addChild a.nextSlot l = .ok (a.nextSlot, b) ∧
      b.get? a.nextSlot = some ⟨l, some a.nextSlot, [a.nextSlot]⟩ ∧
      b.addressed = a.addressed ∧ b.size = a.size + 1 := by
  obtain ⟨c, hAlloc, hTidy, hSelf, hOther, hRoot⟩ := h.tidy.alloc ⟨l, some a.nextSlot, []⟩
  let b := c.setSlot a.nextSlot (some ⟨l, some a.nextSlot, [a.nextSlot]⟩)
  have hb : b.Tidy (a.nextSlot :: t.ids) := hTidy.setSlot List.mem_cons_self _
  refine ⟨b, ?added, get?_setSlot_self (hTidy.lt_size List.mem_cons_self), ?read, ?size⟩
  case added =>
    simp only [Arena.addChild, hAlloc, modify_eq_ok hSelf]
    rfl
  case read =>
    have hHolds : b.Holds none t.toForest := h.holds.congr fun j hj => by
      have hNe : j ≠ a.nextSlot := fun hEq =>
        h.tidy.nextSlot_not_mem (hEq ▸ t.ids_toForest ▸ hj)
      exact (get?_setSlot_ne hNe).trans (hOther j hNe)
    have hSize := hb.length_le_size
    rw [List.length_cons, Tree.length_ids, Tree.size] at hSize
    have hRootLabel : b.root = t.label.1 := hRoot.trans h.root
    rw [h.addressed, Arena.addressed, hRootLabel]
    exact hHolds.treeAt (by omega)
  case size => rw [h.size, Arena.size, hb.live, List.length_cons, Tree.length_ids]

end Represents

/-- An edit that does not add a node below itself leads from one arena to the other. -/
def Edited (a b : Arena) : Prop := ∃ e : Edit, e.Proper ∧ ¬ e.BelowItself a ∧ e.run a = .ok b

theorem Represents.edited (h : a.Represents t) (hEdited : a.Edited b) : ∃ u, b.Represents u := by
  obtain ⟨e, hProper, hNext, hRun⟩ := hEdited
  cases hGet : a.get? e.address with
  | none =>
    rw [Edit.run_dead h hGet hNext] at hRun
    cases hRun
  | some n =>
    have hRoot : e ≠ .removeChild a.root := by
      rintro rfl
      rw [Edit.run, h.removeChild_root] at hRun
      cases hRun
    obtain ⟨c, u, hOk, hc⟩ := h.edit e hProper (hGet ▸ rfl) hRoot
    obtain rfl := Except.ok.inj (hRun.symm.trans hOk)
    exact ⟨u, hc⟩

/-- Edits one after another leave arenas that represent trees. -/
theorem Represents.editedSteps (h : a.Represents t) (hSteps : ReflTransGen Edited a b) :
    ∃ u, b.Represents u := by
  induction hSteps with
  | refl => exact ⟨t, h⟩
  | tail _ hEdited ih =>
    obtain ⟨u, hu⟩ := ih
    exact hu.edited hEdited

/-- What becomes of addresses that are not in use. -/
structure Guards (a : Arena) : Prop where
  decode : ∀ id, a.get? id = none → a.decodeAt id = .error (.missingNode id)
  /-- Any edit is rejected, except for a node below itself. -/
  edit : ∀ e : Edit, a.get? e.address = none → ¬ e.BelowItself a →
    e.run a = .error (.missingNode e.address)
  /-- A node below itself is accepted, and the arena is out of order. -/
  belowItself : a.get? a.nextSlot = none ∧ ∀ l, ∃ b, a.addChild a.nextSlot l = .ok (a.nextSlot, b) ∧
    b.get? a.nextSlot = some ⟨l, some a.nextSlot, [a.nextSlot]⟩ ∧
    b.preorder = a.preorder ∧ b.size = a.size + 1 ∧ ¬ b.Sound
  /-- All other edits that go through leave arenas in order. -/
  sound : ∀ b, ReflTransGen Edited a b → b.Sound

/-- In an arena in order all addresses that are not in use are rejected, but for the slot that the
next node takes. -/
theorem guards_dead (h : a.Sound) : a.Guards := by
  obtain ⟨t, ht⟩ := h.represents
  refine ⟨fun id => decodeAt_eq_error, fun e => Edit.run_dead ht, ⟨ht.get?_nextSlot, fun l => ?_⟩,
    fun b hSteps => ?_⟩
  · obtain ⟨b, hAdd, hGet, hRead, hSize⟩ := ht.addChild_nextSlot l
    refine ⟨b, hAdd, hGet, by rw [preorder, preorder, hRead], hSize, fun hSound => ?_⟩
    exact hSound.not_lists_self ⟨_, hGet, List.mem_singleton_self _⟩
  · obtain ⟨u, hu⟩ := ht.editedSteps hSteps
    exact hu.sound

/-- After a removal the next node takes the vacated slot; the addresses behind the last slot are
rejected as parents. -/
theorem guards_dead_vacated :
    let leaf (n : Nat) : Label := ⟨.count n, none⟩
    let s : Script :=
      .removeChild (.addChild (.addChild (.single (leaf 0)) 0 (leaf 1)) 0 (leaf 2)) 1
    ∃ a, s.run = .ok a ∧ a.Sound ∧ a.Guards ∧ a.nextSlot = 1 ∧
      (Edit.addChild 3 (leaf 3)).run a = .error (.missingNode 3) := by
  intro leaf s
  obtain ⟨a, t, hRun, ht⟩ := Script.run_represents (s := s) (by decide +kernel)
  have hGuards : a.Guards := guards_dead ht.sound
  have hSlots : ∀ a, s.run = .ok a → a.nextSlot = 1 ∧ (a.get? 3).isNone := by decide +kernel
  obtain ⟨hNext, hDead⟩ := hSlots a hRun
  have hNe : ¬ (Edit.addChild 3 (leaf 3)).BelowItself a := by
    rw [Edit.BelowItself, hNext]
    decide
  exact ⟨a, hRun, ht.sound, hGuards, hNext, hGuards.edit _ (Option.isNone_iff_eq_none.1 hDead) hNe⟩

/-- Next to a single root, the first slot behind it is accepted as a parent, and the node there
cannot be reached. -/
theorem addChild_accepts_dead :
    let leaf (n : Nat) : Label := ⟨.count n, none⟩
    (single (leaf 0)).Sound ∧ (single (leaf 0)).get? 1 = none ∧
      ∃ b, (single (leaf 0)).addChild 1 (leaf 1) = .ok (1, b) ∧
        b.size = 2 ∧ b.preorder = .ok [0] ∧ ¬ b.Sound := by
  intro leaf
  have h := represents_single (leaf 0)
  obtain ⟨b, hAdd, hGet, hRead, hSize⟩ := h.addChild_nextSlot (leaf 1)
  have hOrder : b.preorder = .ok [0] := by
    rw [preorder, hRead]
    rfl
  refine ⟨h.sound, rfl, b, hAdd, hSize, hOrder, fun hSound => ?_⟩
  exact hSound.not_lists_self ⟨_, hGet, List.mem_singleton_self _⟩

end Arena

end OntoFold
