import Mathlib.Data.Set.Finite.Basic
import Mathlib.Order.Preorder.Finite
import Mathlib.Order.WellFounded
import OntoFold.Proofs.Dependency.Reachability

/-!
# Endless chains of dependencies

Dependencies are well-founded below a name when no endless chain of them starts there. There are
finitely many candidates, so an endless chain comes back to a candidate that it has passed, and the
names at which an endless chain starts are those that the graph calls cyclic.

* `Candidates.not_reaches_self_of_acc`: well-founded dependencies contain no circles.
* `Candidates.exists_circle_of_chain`: an endless chain leads into a circle.
* `DependencyGraph.mem_cyclic_iff_chain`: the cyclic candidates start endless chains.
-/

namespace OntoFold

open Relation (ReflTransGen TransGen)

namespace Candidates

variable {candidates : Candidates} {x y : Iri} {chain : Nat → Iri}

/-- Below a name with well-founded dependencies nothing reaches itself. -/
theorem not_reaches_self_of_acc (hx : Acc (fun y x => candidates.Mentions x y) x)
    (hPath : ReflTransGen candidates.Mentions x y) : ¬ candidates.Reaches y y := by
  induction hx with
  | intro x _ ih =>
    intro hSelf
    -- Going round the circle once makes sure that a first step is taken.
    obtain ⟨z, hStep, hPath⟩ := TransGen.head'_iff.1 (TransGen.trans_right hPath hSelf)
    exact ih z hStep hPath hSelf

/-- Later members of a chain are reached from earlier ones. -/
theorem reaches_of_chain (hChain : ∀ k, candidates.Mentions (chain k) (chain (k + 1)))
    {j k : Nat} (h : j < k) : candidates.Reaches (chain j) (chain k) :=
  Nat.rel_of_forall_rel_succ_of_lt (TransGen candidates.Mentions)
    (fun k => TransGen.single (hChain k)) h

/-- An endless chain reaches a candidate twice. -/
theorem exists_circle_of_chain (hChain : ∀ k, candidates.Mentions (chain k) (chain (k + 1))) :
    ∃ y, candidates.Reaches (chain 0) y ∧ candidates.Reaches y y := by
  have hKeys : ∀ k, chain k ∈ {y | y ∈ candidates.keys.toList} := fun k =>
    SortedMap.mem_keys.2 (reaches_of_chain hChain k.lt_succ_self).contains_left
  obtain ⟨j, k, hLt, hSame⟩ :=
    Set.Finite.exists_lt_map_eq_of_forall_mem hKeys candidates.keys.toList.finite_toSet
  refine ⟨chain k, reaches_of_chain hChain (Nat.zero_lt_of_lt hLt), ?_⟩
  have hCircle := reaches_of_chain hChain hLt
  rwa [hSame] at hCircle

end Candidates

namespace DependencyGraph

variable {candidates : Candidates} {x : Iri}

/-- The cyclic candidates are the names at which an endless chain of dependencies starts. -/
theorem mem_cyclic_iff_chain :
    x ∈ (ofCandidates candidates).cyclic ↔ ∃ chain : Nat → Iri, chain 0 = x ∧
      ∀ k, candidates.Mentions (chain k) (chain (k + 1)) := by
  rw [mem_cyclic]
  constructor
  · rintro ⟨y, hReaches, hSelf⟩
    have hNot : ¬ Acc (fun y x => candidates.Mentions x y) x := fun hAcc =>
      Candidates.not_reaches_self_of_acc hAcc hReaches.to_reflTransGen hSelf
    exact not_acc_iff_exists_descending_chain.1 hNot
  · rintro ⟨chain, rfl, hChain⟩
    exact Candidates.exists_circle_of_chain hChain

end DependencyGraph

end OntoFold
