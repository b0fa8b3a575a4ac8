import OntoFold.Definition.Index
import OntoFold.Proofs.Order.Entries
import OntoFold.Proofs.Order.Grouping
import OntoFold.Proofs.Rewriting.Names

/-!
# Abbreviations of a list of axioms

An equivalence with one named operand abbreviates each of its complex operands by the name. The
index of a list of axioms holds the abbreviations that some axiom of the list makes.

* `DefinitionIndex.mem_abbreviations`: what the index holds for a name.
* `DefinitionIndex.mem_definitions`: the axioms that the index holds for a name.
* `DefinitionIndex.isDefinition_ofList`: the axioms that count as definitions.
-/

namespace OntoFold

theorem DefinitionKind.named_of_ofCounts {named complex : Nat} {kind : DefinitionKind}
    (h : ofCounts named complex = some kind) (hAbbreviation : kind.isAbbreviation = true) :
    named = 1 := by
  unfold ofCounts at h
  split at h
  · next hCounts => exact hCounts.1
  split at h
  · cases h
    cases hAbbreviation
  split at h
  · next hCounts => exact hCounts.1
  split at h
  · cases h
    cases hAbbreviation
  split at h
  · cases h
    cases hAbbreviation
  · cases h

namespace Axiom

variable {ax : Axiom} {n : Iri} {e : ClassExpression}

/-- The axiom is an equivalence with one named operand and at least one complex one. -/
def IsAbbreviation (ax : Axiom) : Prop :=
  ∃ kind, DefinitionKind.of? ax = some kind ∧ kind.isAbbreviation = true

/-- The axiom gives a name to a complex expression. -/
structure Abbreviates (ax : Axiom) (n : Iri) (e : ClassExpression) : Prop where
  isAbbreviation : ax.IsAbbreviation
  named : .named n ∈ ax.operands
  complex : e ∈ ax.operands ∧ e.name? = none

theorem IsAbbreviation.equivalent (h : ax.IsAbbreviation) :
    ∃ operands, ax = .equivalent operands := by
  obtain ⟨kind, hKind, -⟩ := h
  cases ax with
  | equivalent operands => exact ⟨operands, rfl⟩
  | _ => cases hKind

/-- An abbreviation has one name. -/
theorem IsAbbreviation.names (h : ax.IsAbbreviation) :
    ∃ n, ax.operands.filterMap ClassExpression.name? = [n] := by
  obtain ⟨operands, rfl⟩ := h.equivalent
  obtain ⟨kind, hKind, hAbbreviation⟩ := h
  have hCount : operands.countP ClassExpression.isNamed = 1 :=
    DefinitionKind.named_of_ofCounts hKind hAbbreviation
  apply List.length_eq_one_iff.1
  rw [List.length_filterMap_eq_countP]
  exact hCount

theorem IsAbbreviation.exists_named (h : ax.IsAbbreviation) : ∃ n, .named n ∈ ax.operands := by
  obtain ⟨n, hNames⟩ := h.names
  refine ⟨n, ClassExpression.mem_filterMap_name?.1 ?_⟩
  rw [hNames]
  exact List.mem_singleton_self n

theorem IsAbbreviation.eq_of_named {m : Iri} (h : ax.IsAbbreviation) (hm : .named m ∈ ax.operands)
    (hn : .named n ∈ ax.operands) : m = n := by
  obtain ⟨k, hNames⟩ := h.names
  have hEq : ∀ l, .named l ∈ ax.operands → l = k := by
    intro l hl
    have hMem := ClassExpression.mem_filterMap_name?.2 hl
    rw [hNames] at hMem
    exact List.mem_singleton.1 hMem
  rw [hEq m hm, hEq n hn]

/-- An abbreviation has something to abbreviate. -/
theorem IsAbbreviation.exists_abbreviates {ax : Axiom} {n : Iri} (h : ax.IsAbbreviation)
    (hn : .named n ∈ ax.operands) : ∃ e, ax.Abbreviates n e := by
  obtain ⟨operands, rfl⟩ := h.equivalent
  obtain ⟨kind, hKind, hAbbreviation⟩ := h
  have hComplex : 0 < operands.countP fun e => !e.isNamed := by
    by_contra hNone
    -- One name alone is no definition of any kind.
    have hOne := DefinitionKind.named_of_ofCounts hKind hAbbreviation
    simp [DefinitionKind.of?, DefinitionKind.ofCounts, hOne, Nat.eq_zero_of_not_pos hNone] at hKind
  obtain ⟨e, he, hNot⟩ := List.countP_pos_iff.1 hComplex
  refine ⟨e, ⟨kind, hKind, hAbbreviation⟩, hn, he, ?_⟩
  simpa [ClassExpression.isNamed] using hNot

end Axiom

namespace DefinitionIndex

variable {index : DefinitionIndex} {axioms : List Axiom} {ax : Axiom} {n : Iri}
  {e : ClassExpression}

/-! ## Adding one axiom -/

theorem add_of_kind {kind : DefinitionKind} (h : DefinitionKind.of? ax = some kind) :
    (index.add ax).kinds = index.kinds.insert ax kind := by
  unfold add
  rw [h]
  dsimp only
  split
  · cases (ax.operands.filterMap ClassExpression.name?).head? <;> rfl
  · split <;> rfl

theorem add_of_none (h : DefinitionKind.of? ax = none) : index.add ax = index := by
  rw [add, h]

/-- An abbreviation is indexed under its name. -/
theorem add_of_isAbbreviation (h : ax.IsAbbreviation) (hn : .named n ∈ ax.operands) :
    (index.add ax).abbreviations =
        index.abbreviations.extend n (ax.operands.filter fun e => !e.isNamed) ∧
      (index.add ax).definitions = index.definitions.extend n [ax] := by
  obtain ⟨m, hNames⟩ := h.names
  obtain rfl : n = m := by
    have hMem := ClassExpression.mem_filterMap_name?.2 hn
    rw [hNames] at hMem
    exact List.mem_singleton.1 hMem
  obtain ⟨kind, hKind, hAbbreviation⟩ := h
  unfold add
  rw [hKind]
  dsimp only
  rw [if_pos hAbbreviation, hNames]
  exact ⟨rfl, rfl⟩

/-- Other axioms leave the abbreviations alone. -/
theorem add_of_not_isAbbreviation (h : ¬ ax.IsAbbreviation) :
    (index.add ax).abbreviations = index.abbreviations ∧
      (index.add ax).definitions = index.definitions := by
  cases hKind : DefinitionKind.of? ax with
  | none =>
    rw [add_of_none hKind]
    exact ⟨rfl, rfl⟩
  | some kind =>
    unfold add
    rw [hKind]
    dsimp only
    rw [if_neg fun hAbbreviation => h ⟨kind, hKind, hAbbreviation⟩]
    split <;> exact ⟨rfl, rfl⟩

/-- One axiom adds what it abbreviates. -/
theorem hasMember_add :
    (index.add ax).abbreviations.HasMember n e ↔
      index.abbreviations.HasMember n e ∨ ax.Abbreviates n e := by
  by_cases hAx : ax.IsAbbreviation
  · obtain ⟨m, hm⟩ := hAx.exists_named
    rw [(add_of_isAbbreviation hAx hm).1, SortedMap.hasMember_extend, List.mem_filter]
    refine or_congr Iff.rfl ?_
    constructor
    · rintro ⟨rfl, he, hComplex⟩
      refine ⟨hAx, hm, he, ?_⟩
      simpa [ClassExpression.isNamed] using hComplex
    · rintro ⟨-, hNamed, he, hComplex⟩
      refine ⟨hAx.eq_of_named hNamed hm, he, ?_⟩
      simp [ClassExpression.isNamed, hComplex]
  · rw [(add_of_not_isAbbreviation hAx).1]
    exact (or_iff_left fun h => hAx h.isAbbreviation).symm

/-- One axiom adds a set for the name of an abbreviation. -/
theorem contains_add :
    (index.add ax).abbreviations.contains n = true ↔
      index.abbreviations.contains n = true ∨ ax.IsAbbreviation ∧ .named n ∈ ax.operands := by
  by_cases hAx : ax.IsAbbreviation
  · obtain ⟨m, hm⟩ := hAx.exists_named
    rw [(add_of_isAbbreviation hAx hm).1, SortedMap.contains_extend]
    refine or_congr Iff.rfl ⟨?_, fun h => hAx.eq_of_named h.2 hm⟩
    rintro rfl
    exact ⟨hAx, hm⟩
  · rw [(add_of_not_isAbbreviation hAx).1]
    exact (or_iff_left fun h => hAx h.1).symm

/-- An abbreviation is kept with its name. -/
theorem hasMember_definitions_add {ax' : Axiom} :
    (index.add ax).definitions.HasMember n ax' ↔ index.definitions.HasMember n ax' ∨
      ax' = ax ∧ ax.IsAbbreviation ∧ .named n ∈ ax.operands := by
  by_cases hAx : ax.IsAbbreviation
  · obtain ⟨m, hm⟩ := hAx.exists_named
    rw [(add_of_isAbbreviation hAx hm).2, SortedMap.hasMember_extend, List.mem_singleton]
    refine or_congr Iff.rfl ?_
    constructor
    · rintro ⟨rfl, rfl⟩
      exact ⟨rfl, hAx, hm⟩
    · rintro ⟨rfl, -, hn⟩
      exact ⟨hAx.eq_of_named hn hm, rfl⟩
  · rw [(add_of_not_isAbbreviation hAx).2]
    exact (or_iff_left fun h => hAx h.2.1).symm

/-! ## Adding a list -/

/-- What single axioms bring about, the axioms of a list bring about together. -/
theorem foldl_add_iff (holds : DefinitionIndex → Prop) {added : Axiom → Prop}
    (hAdd : ∀ index ax, holds (index.add ax) ↔ holds index ∨ added ax) :
    holds (axioms.foldl add index) ↔ holds index ∨ ∃ ax ∈ axioms, added ax := by
  induction axioms generalizing index with
  | nil => simp
  | cons ax axioms ih =>
    rw [List.foldl_cons, ih, hAdd, or_assoc]
    simp only [List.exists_mem_cons_iff]

/-- The index holds for a name what some axiom abbreviates by it. -/
theorem mem_abbreviations :
    (ofList axioms).abbreviations.HasMember n e ↔ ∃ ax ∈ axioms, ax.Abbreviates n e := by
  rw [ofList, foldl_add_iff (fun index => index.abbreviations.HasMember n e)
    fun _ _ => hasMember_add]
  exact or_iff_right SortedMap.not_hasMember_empty

/-- The index has sets for the names that abbreviate something. -/
theorem contains_abbreviations :
    (ofList axioms).abbreviations.contains n = true ↔
      ∃ ax ∈ axioms, ax.IsAbbreviation ∧ .named n ∈ ax.operands := by
  rw [ofList, foldl_add_iff (fun index => index.abbreviations.contains n = true)
    fun _ _ => contains_add]
  exact or_iff_right Bool.false_ne_true

/-- The index holds for a name the axioms that abbreviate something by it. -/
theorem mem_definitions :
    (ofList axioms).definitions.HasMember n ax ↔
      ax ∈ axioms ∧ ax.IsAbbreviation ∧ .named n ∈ ax.operands := by
  rw [ofList, foldl_add_iff (fun index => index.definitions.HasMember n ax)
    fun _ _ => hasMember_definitions_add, or_iff_right SortedMap.not_hasMember_empty]
  simp

theorem kinds_foldl_add {kind : DefinitionKind}
    (h : ∀ ax kind, index.kinds.get? ax = some kind → DefinitionKind.of? ax = some kind) :
    (axioms.foldl add index).kinds.get? ax = some kind ↔
      index.kinds.get? ax = some kind ∨ (ax ∈ axioms ∧ DefinitionKind.of? ax = some kind) := by
  induction axioms generalizing index with
  | nil => simp
  | cons head axioms ih =>
    rw [List.foldl_cons]
    cases hKind : DefinitionKind.of? head with
    | none =>
      rw [add_of_none hKind, ih h, List.mem_cons]
      constructor
      · rintro (hGet | ⟨hMem, hOf⟩)
        · exact Or.inl hGet
        · exact Or.inr ⟨Or.inr hMem, hOf⟩
      · rintro (hGet | ⟨rfl | hMem, hOf⟩)
        · exact Or.inl hGet
        · rw [hKind] at hOf
          cases hOf
        · exact Or.inr ⟨hMem, hOf⟩
    | some headKind =>
      have hAdd : ∀ x k, (index.add head).kinds.get? x = some k →
          DefinitionKind.of? x = some k := by
        intro x k hGet
        rw [add_of_kind hKind] at hGet
        by_cases hx : x = head
        · rw [hx, SortedMap.get?_insert_self] at hGet
          rw [hx, hKind, hGet]
        · rw [SortedMap.get?_insert_ne hx] at hGet
          exact h x k hGet
      rw [ih hAdd, add_of_kind hKind, List.mem_cons]
      by_cases hx : ax = head
      · subst hx
        rw [SortedMap.get?_insert_self, ← hKind]
        constructor
        · rintro (hOf | ⟨-, hOf⟩)
          · exact Or.inr ⟨Or.inl rfl, hOf⟩
          · exact Or.inr ⟨Or.inl rfl, hOf⟩
        · rintro (hGet | ⟨-, hOf⟩)
          · exact Or.inl (h ax kind hGet)
          · exact Or.inl hOf
      · rw [SortedMap.get?_insert_ne hx, or_iff_right hx]

/-- The definitions are the abbreviations of the list. -/
theorem isDefinition_ofList :
    (ofList axioms).isDefinition ax = true ↔ ax ∈ axioms ∧ ax.IsAbbreviation := by
  have hGet : ∀ kind, (ofList axioms).kinds.get? ax = some kind ↔
      none = some kind ∨ (ax ∈ axioms ∧ DefinitionKind.of? ax = some kind) := fun kind =>
    kinds_foldl_add fun x k hNone => by cases hNone
  unfold isDefinition
  rw [Option.any_eq_true]
  constructor
  · rintro ⟨kind, hKind, hAbbreviation⟩
    rcases (hGet kind).1 hKind with hNone | ⟨hMem, hOf⟩
    · cases hNone
    · exact ⟨hMem, kind, hOf, hAbbreviation⟩
  · rintro ⟨hMem, kind, hOf, hAbbreviation⟩
    exact ⟨kind, (hGet kind).2 (Or.inr ⟨hMem, hOf⟩), hAbbreviation⟩

end DefinitionIndex

end OntoFold
