import Mathlib.Logic.Relation
import OntoFold.Dependency.Graph
import OntoFold.Proofs.Order.Entries
import OntoFold.Proofs.Rewriting.Names

/-!
# Reachability

A candidate reaches the candidates that its expansions mention and all that these reach. The
rounds of the closure collect exactly what is reached, and a candidate below which there are no
circles reaches more than each candidate it reaches.

* `DependencyGraph.mem_reached`: what the graph records is reachability.
* `DependencyGraph.mem_cyclic`: the cyclic candidates reach a candidate that reaches itself.
* `DependencyGraph.size_reached_lt`: what is reached shrinks along acyclic dependencies.
-/

namespace OntoFold

open Relation (ReflTransGen TransGen)

namespace Candidates

variable {candidates : Candidates} {x y : Iri}

/-- An expansion of the first name mentions the second one, which is a candidate. -/
def Mentions (candidates : Candidates) (x y : Iri) : Prop :=
  ∃ expansions, candidates.get? x = some expansions ∧ (∃ e ∈ expansions, y ∈ e.names) ∧
    candidates.contains y = true

/-- A chain of mentions leads from the first name to the second one. -/
def Reaches (candidates : Candidates) : Iri → Iri → Prop := TransGen candidates.Mentions

theorem mem_mentioned {expansions : SortedSet ClassExpression} :
    y ∈ candidates.mentioned expansions ↔
      (∃ e ∈ expansions, y ∈ e.names) ∧ candidates.contains y = true := by
  rw [mentioned, List.mem_eraseDups, List.mem_filter, List.mem_flatMap]
  exact Iff.rfl

theorem mem_dependencies : y ∈ candidates.dependencies x ↔ candidates.Mentions x y := by
  unfold dependencies Mentions
  rw [SortedSet.mem_ofList]
  cases candidates.get? x with
  | none => simp
  | some expansions => simp [mem_mentioned]

theorem Reaches.contains_left (h : candidates.Reaches x y) : candidates.contains x = true := by
  obtain ⟨z, ⟨expansions, hGet, -⟩, -⟩ := TransGen.head'_iff.1 h
  exact SortedMap.contains_iff.2 ⟨expansions, hGet⟩

theorem Reaches.contains_right (h : candidates.Reaches x y) : candidates.contains y = true := by
  cases h with
  | single hStep => exact hStep.choose_spec.2.2
  | tail _ hStep => exact hStep.choose_spec.2.2

end Candidates

namespace DependencyGraph

/-! ## Rounds of the closure -/

section Rounds

variable {direct : Iri → SortedSet Iri} {collected frontier start : SortedSet Iri} {x : Iri}

/-- Something is in a set of names or reached from it. -/
def ReachedFrom (direct : Iri → SortedSet Iri) (start : SortedSet Iri) (x : Iri) : Prop :=
  ∃ y ∈ start, ReflTransGen (fun a b => b ∈ direct a) y x

/-- The state between two rounds: everything known is reached, and what follows from a collected
name is known. -/
structure Collecting (direct : Iri → SortedSet Iri) (start collected frontier : SortedSet Iri) :
    Prop where
  known : ∀ x ∈ start, x ∈ collected ∨ x ∈ frontier
  closed : ∀ x ∈ collected, ∀ y ∈ direct x, y ∈ collected ∨ y ∈ frontier
  of_collected : ∀ x ∈ collected, ReachedFrom direct start x
  of_frontier : ∀ x ∈ frontier, ReachedFrom direct start x

theorem Collecting.initial (direct : Iri → SortedSet Iri) (start : SortedSet Iri) :
    Collecting direct start ∅ start where
  known _ hx := Or.inr hx
  closed _ hx := absurd hx SortedSet.not_mem_empty
  of_collected _ hx := absurd hx SortedSet.not_mem_empty
  of_frontier x hx := ⟨x, hx, ReflTransGen.refl⟩

/-- One round collects the fresh names of the frontier and goes on to what they lead to. -/
theorem Collecting.round (h : Collecting direct start collected frontier) :
    Collecting direct start (collected ∪ frontier \ collected)
      (.unions ((frontier \ collected).toList.map direct)) := by
  have hKnown : ∀ x, x ∈ collected ∨ x ∈ frontier → x ∈ collected ∪ frontier \ collected := by
    intro x hx
    rw [SortedSet.mem_union, SortedSet.mem_sdiff]
    by_cases hIn : x ∈ collected
    · exact Or.inl hIn
    · exact Or.inr ⟨hx.resolve_left hIn, hIn⟩
  have hReached : ∀ x ∈ collected ∪ frontier \ collected, ReachedFrom direct start x := by
    intro x hx
    rcases SortedSet.mem_union.1 hx with hx | hx
    · exact h.of_collected x hx
    · exact h.of_frontier x (SortedSet.mem_sdiff.1 hx).1
  have hFrontier : ∀ y, y ∈ SortedSet.unions ((frontier \ collected).toList.map direct) ↔
      ∃ x ∈ frontier \ collected, y ∈ direct x := by
    intro y
    simp [SortedSet.mem_toList]
  refine ⟨fun x hx => Or.inl (hKnown x (h.known x hx)), ?_, hReached, ?_⟩
  · intro x hx y hy
    rcases SortedSet.mem_union.1 hx with hx | hx
    · exact Or.inl (hKnown y (h.closed x hx y hy))
    · exact Or.inr ((hFrontier y).2 ⟨x, hx, hy⟩)
  · intro y hy
    obtain ⟨x, hx, hStep⟩ := (hFrontier y).1 hy
    obtain ⟨z, hz, hPath⟩ := h.of_frontier x (SortedSet.mem_sdiff.1 hx).1
    exact ⟨z, hz, hPath.tail hStep⟩

/-- When no name of the frontier is fresh, everything reached is collected. -/
theorem Collecting.complete (h : Collecting direct start collected frontier)
    (hDone : ∀ x ∈ frontier, x ∈ collected) :
    x ∈ collected ↔ ReachedFrom direct start x := by
  constructor
  · exact h.of_collected x
  · rintro ⟨y, hy, hPath⟩
    induction hPath with
    | refl => exact (h.known y hy).elim id (hDone y)
    | tail _ hStep ih => exact (h.closed _ ih _ hStep).elim id (hDone _)

theorem close_succ (direct : Iri → SortedSet Iri) (fuel : Nat)
    (collected frontier : SortedSet Iri) :
    close direct (fuel + 1) collected frontier =
      if (frontier \ collected).isEmpty then collected
      else close direct fuel (collected ∪ frontier \ collected)
        (.unions ((frontier \ collected).toList.map direct)) := rfl

/-- A round that finds something fresh leaves fewer names to collect. -/
theorem Collecting.size_round_lt {carrier : SortedSet Iri}
    (h : Collecting direct start collected frontier)
    (hCarrier : ∀ x, ReachedFrom direct start x → x ∈ carrier)
    (hFresh : ¬ (frontier \ collected).isEmpty = true) :
    (carrier \ (collected ∪ frontier \ collected)).size < (carrier \ collected).size := by
  rw [SortedSet.isEmpty_iff] at hFresh
  push Not at hFresh
  obtain ⟨y, hy⟩ := hFresh
  obtain ⟨hFrontier, hNew⟩ := SortedSet.mem_sdiff.1 hy
  apply SortedSet.size_lt (a := y)
  · intro z hz
    obtain ⟨hIn, hOut⟩ := SortedSet.mem_sdiff.1 hz
    exact SortedSet.mem_sdiff.2 ⟨hIn, fun hMem => hOut (SortedSet.mem_union.2 (Or.inl hMem))⟩
  · exact SortedSet.mem_sdiff.2 ⟨hCarrier y (h.of_frontier y hFrontier), hNew⟩
  · exact fun hMem => (SortedSet.mem_sdiff.1 hMem).2 (SortedSet.mem_union.2 (Or.inr hy))

/-- With more rounds than names left to collect, the closure is what is reached. -/
theorem mem_close (carrier : SortedSet Iri) {fuel : Nat}
    (h : Collecting direct start collected frontier)
    (hCarrier : ∀ x, ReachedFrom direct start x → x ∈ carrier)
    (hFuel : (carrier \ collected).size < fuel) :
    x ∈ close direct fuel collected frontier ↔ ReachedFrom direct start x := by
  induction fuel generalizing collected frontier with
  | zero => omega
  | succ fuel ih =>
    rw [close_succ]
    split
    · next hEmpty =>
      apply h.complete
      intro y hy
      by_contra hNew
      exact SortedSet.isEmpty_iff.1 hEmpty y (SortedSet.mem_sdiff.2 ⟨hy, hNew⟩)
    · next hFresh =>
      apply ih h.round
      have hFewer := h.size_round_lt hCarrier hFresh
      omega

end Rounds

/-! ## Transitive dependencies -/

variable {candidates : Candidates} {x y z : Iri}

/-- What the graph of some candidates records for a name. -/
def reached (candidates : Candidates) (x : Iri) : SortedSet Iri :=
  ((ofCandidates candidates).transitive? x).getD ∅

theorem transitive?_eq_some {s : SortedSet Iri} :
    (ofCandidates candidates).transitive? x = some s ↔ candidates.contains x = true ∧
      close candidates.dependencies (candidates.size + 1) ∅ (candidates.dependencies x) = s := by
  rw [transitive?, ofCandidates, SortedMap.get?_mapValues, SortedMap.contains_iff]
  exact exists_and_right

theorem reachedFrom_dependencies :
    ReachedFrom candidates.dependencies (candidates.dependencies x) y ↔
      candidates.Reaches x y := by
  unfold ReachedFrom Candidates.Reaches
  rw [TransGen.head'_iff]
  simp only [Candidates.mem_dependencies]

/-- What is reached are candidates. -/
theorem mem_keys_of_reachedFrom
    (h : ReachedFrom candidates.dependencies (candidates.dependencies x) y) :
    y ∈ candidates.keys :=
  SortedMap.mem_keys.2 (reachedFrom_dependencies.1 h).contains_right

/-- There are enough rounds to collect all candidates. -/
theorem size_keys_sdiff_lt (collected : SortedSet Iri) :
    (candidates.keys \ collected).size < candidates.size + 1 := by
  apply Nat.lt_succ_of_le
  rw [← SortedMap.size_keys]
  exact SortedSet.size_le fun z hz => (SortedSet.mem_sdiff.1 hz).1

theorem mem_closure :
    y ∈ close candidates.dependencies (candidates.size + 1) ∅ (candidates.dependencies x) ↔
      candidates.Reaches x y := by
  rw [← reachedFrom_dependencies]
  exact mem_close candidates.keys (Collecting.initial _ _) (fun _ => mem_keys_of_reachedFrom)
    (size_keys_sdiff_lt ∅)

/-- What the graph records is reachability. -/
theorem mem_reached : y ∈ reached candidates x ↔ candidates.Reaches x y := by
  unfold reached
  cases h : (ofCandidates candidates).transitive? x with
  | some s =>
    rw [← (transitive?_eq_some.1 h).2, Option.getD_some, mem_closure]
  | none =>
    rw [Option.getD_none]
    refine iff_of_false SortedSet.not_mem_empty fun hReaches => ?_
    rw [transitive?_eq_some.2 ⟨hReaches.contains_left, rfl⟩] at h
    cases h

theorem mem_selfDependent :
    x ∈ (ofCandidates candidates).selfDependent ↔ candidates.Reaches x x := by
  unfold selfDependent
  rw [SortedMap.mem_keys_filter]
  constructor
  · rintro ⟨s, hGet, hMem⟩
    rw [← (transitive?_eq_some.1 hGet).2, decide_eq_true_eq, mem_closure] at hMem
    exact hMem
  · intro h
    refine ⟨_, transitive?_eq_some.2 ⟨h.contains_left, rfl⟩, ?_⟩
    rw [decide_eq_true_eq, mem_closure]
    exact h

/-- The cyclic candidates reach a candidate that reaches itself. -/
theorem mem_cyclic :
    x ∈ (ofCandidates candidates).cyclic ↔
      ∃ y, candidates.Reaches x y ∧ candidates.Reaches y y := by
  unfold cyclic
  simp only [SortedMap.mem_keys_filter, mem_selfDependent, Bool.or_eq_true, decide_eq_true_eq,
    List.any_eq_true]
  constructor
  · rintro ⟨s, hGet, hSelf | ⟨y, hy, hSelf⟩⟩
    · exact ⟨x, hSelf, hSelf⟩
    · rw [← (transitive?_eq_some.1 hGet).2, SortedSet.mem_toList, mem_closure] at hy
      exact ⟨y, hy, hSelf⟩
  · rintro ⟨y, hReaches, hSelf⟩
    refine ⟨_, transitive?_eq_some.2 ⟨hReaches.contains_left, rfl⟩, Or.inr ⟨y, ?_, hSelf⟩⟩
    rw [SortedSet.mem_toList, mem_closure]
    exact hReaches

/-! ## Acyclic candidates -/

theorem not_mem_cyclic_of_reaches (hx : x ∉ (ofCandidates candidates).cyclic)
    (h : candidates.Reaches x y) : y ∉ (ofCandidates candidates).cyclic := by
  intro hy
  obtain ⟨z, hReaches, hSelf⟩ := mem_cyclic.1 hy
  exact hx (mem_cyclic.2 ⟨z, h.trans hReaches, hSelf⟩)

theorem not_reaches_self (hx : x ∉ (ofCandidates candidates).cyclic) :
    ¬ candidates.Reaches x x := fun h => hx (mem_cyclic.2 ⟨x, h, h⟩)

/-- Along acyclic dependencies less and less is reached. -/
theorem size_reached_lt (hx : x ∉ (ofCandidates candidates).cyclic)
    (h : candidates.Reaches x y) : (reached candidates y).size < (reached candidates x).size := by
  apply SortedSet.size_lt (a := y)
  · intro z hz
    exact mem_reached.2 (h.trans (mem_reached.1 hz))
  · exact mem_reached.2 h
  · intro hSelf
    exact not_reaches_self (not_mem_cyclic_of_reaches hx h) (mem_reached.1 hSelf)

/-- An acyclic candidate does not reach all candidates. -/
theorem size_reached_lt_size (hx : x ∉ (ofCandidates candidates).cyclic)
    (hContains : candidates.contains x = true) :
    (reached candidates x).size < candidates.size := by
  rw [← SortedMap.size_keys]
  apply SortedSet.size_lt (a := x)
  · intro z hz
    exact SortedMap.mem_keys.2 (mem_reached.1 hz).contains_right
  · exact SortedMap.mem_keys.2 hContains
  · intro hSelf
    exact not_reaches_self hx (mem_reached.1 hSelf)

end DependencyGraph

end OntoFold
