import OntoFold.Proofs.Dependency.Chains
import OntoFold.Proofs.Glossary.Declaration

/-!
# Which definitions are accepted

A name becomes a declared symbol when the axioms define it by one complex expression only and
following the dependencies from it comes to an end. Names that are defined by several expressions
are no symbols, yet they carry dependencies, so an endless chain may pass through them. The axioms
that define the symbols are then the definitions of the symbols by their expansions, one for each.

* `Axiom.DefinesAs`, `DependsOn`: definitions and dependencies as they are written.
* `Declared.contains_expansionsOf_iff`: the names that become symbols.
* `Declared.mem_validDefinitions`: the axioms that define symbols.
* `Declared.ofList_accepts`: what reading symbols off a list of axioms accepts.
-/

namespace OntoFold

/-! ## Definitions as they are written -/

/-- Equivalences with one name and some complex operands have a kind, which is an abbreviation. -/
theorem DefinitionKind.exists_ofCounts {complex : Nat} (h : 0 < complex) :
    ∃ kind, ofCounts 1 complex = some kind ∧ kind.isAbbreviation = true := by
  unfold ofCounts
  by_cases hOne : complex = 1
  · rw [if_pos ⟨rfl, hOne⟩]
    exact ⟨_, rfl, rfl⟩
  · rw [if_neg fun hBoth => hOne hBoth.2, if_neg fun hBoth => absurd hBoth.1 (by decide),
      if_pos ⟨rfl, by omega⟩]
    exact ⟨_, rfl, rfl⟩

namespace Axiom

variable {ax : Axiom} {n : Iri} {e X : ClassExpression}

/-- The axiom is an equivalence whose only named operand is the name, and the expression is one of
its complex operands. -/
def DefinesAs (ax : Axiom) (n : Iri) (e : ClassExpression) : Prop :=
  ∃ operands, ax = .equivalent operands ∧ (∀ m, .named m ∈ operands ↔ m = n) ∧
    e ∈ operands ∧ e.name? = none

/-- Abbreviations are recognized by counting operands, which are all different. -/
theorem abbreviates_iff_definesAs (hAx : ax.Canonical) : ax.Abbreviates n e ↔ ax.DefinesAs n e := by
  constructor
  · intro h
    obtain ⟨operands, rfl⟩ := h.isAbbreviation.equivalent
    refine ⟨operands, rfl, fun m => ⟨fun hm => ?_, ?_⟩, h.complex⟩
    · exact h.isAbbreviation.eq_of_named hm h.named
    · rintro rfl
      exact h.named
  · rintro ⟨operands, rfl, hNames, he⟩
    have hNodup : operands.Nodup :=
      Ascending.nodup (of_decide_eq_true (Bool.and_eq_true_iff.1 hAx).1)
    have hn : .named n ∈ operands := (hNames n).2 rfl
    have hNamed : operands.countP ClassExpression.isNamed = 1 := by
      rw [← List.count_eq_one_of_mem hNodup hn, List.count]
      refine List.countP_congr fun o ho => ?_
      rw [beq_iff_eq, ClassExpression.isNamed, Option.isSome_iff_exists]
      constructor
      · rintro ⟨m, hm⟩
        obtain rfl := ClassExpression.eq_named_of_name? hm
        rw [(hNames m).1 ho]
      · rintro rfl
        exact ⟨n, rfl⟩
    have hComplex : 0 < operands.countP fun e => !e.isNamed :=
      List.countP_pos_iff.2 ⟨e, he.1, by simp [ClassExpression.isNamed, he.2]⟩
    obtain ⟨kind, hKind, hAbbreviation⟩ := DefinitionKind.exists_ofCounts hComplex
    refine ⟨⟨kind, ?_, hAbbreviation⟩, hn, he⟩
    rw [DefinitionKind.of?, hNamed, hKind]

/-- An axiom that abbreviates one expression only is the definition of its name by it. -/
theorem eq_define (hAx : ax.Canonical) (h : ax.Abbreviates n X)
    (hOnly : ∀ e, ax.Abbreviates n e → e = X) : ax = .define n X := by
  obtain ⟨operands, rfl⟩ := h.isAbbreviation.equivalent
  have hAscending : Ascending operands := of_decide_eq_true (Bool.and_eq_true_iff.1 hAx).1
  refine congrArg equivalent (hAscending.ext (ascending_ascend _) fun o => ?_)
  rw [mem_ascend, List.mem_cons, List.mem_singleton]
  constructor
  · intro ho
    cases hName : o.name? with
    | none => exact Or.inr (hOnly o ⟨h.isAbbreviation, h.named, ho, hName⟩)
    | some m =>
      obtain rfl := ClassExpression.eq_named_of_name? hName
      exact Or.inl (congrArg _ (h.isAbbreviation.eq_of_named ho h.named))
  · rintro (rfl | rfl)
    · exact h.named
    · exact h.complex.1

/-- A definition by a complex expression shows its name. -/
theorem name_of_define {m : Iri} (hX : X.name? = none) (h : define n e = define m X) : n = m := by
  have hMem : ClassExpression.named n ∈ ascend [.named m, X] := by
    rw [← Axiom.equivalent.inj h]
    exact mem_ascend.2 List.mem_cons_self
  rw [mem_ascend, List.mem_cons, List.mem_singleton] at hMem
  rcases hMem with hSame | rfl
  · exact ClassExpression.named.inj hSame
  · cases hX

end Axiom

variable (axioms : List Axiom)

/-- Some axiom defines the name by the complex expression. -/
def Defines (n : Iri) (e : ClassExpression) : Prop := ∃ ax ∈ axioms, ax.DefinesAs n e

/-- Some expression that defines the first name mentions the second one, which is defined itself. -/
def DependsOn (t u : Iri) : Prop :=
  (∃ e, Defines axioms t e ∧ u ∈ e.names) ∧ ∃ e, Defines axioms u e

variable {axioms}

namespace Declared

variable {options : Options} {ax : Axiom} {n t u : Iri} {e : ClassExpression}

/-! ## Accepted names -/

section

variable (hAxioms : ∀ ax ∈ axioms, ax.Canonical)

include hAxioms

theorem hasMember_candidatesOf : (candidatesOf axioms).HasMember n e ↔ Defines axioms n e :=
  DefinitionIndex.mem_abbreviations.trans <| exists_congr fun ax =>
    and_congr_right fun hAx => Axiom.abbreviates_iff_definesAs (hAxioms ax hAx)

theorem contains_candidatesOf :
    (candidatesOf axioms).contains n = true ↔ ∃ e, Defines axioms n e := by
  simp only [← hasMember_candidatesOf hAxioms, candidatesOf, DefinitionIndex.mem_abbreviations,
    DefinitionIndex.contains_abbreviations]
  constructor
  · rintro ⟨ax, hAx, hAbbreviation, hn⟩
    obtain ⟨e, he⟩ := hAbbreviation.exists_abbreviates hn
    exact ⟨e, ax, hAx, he⟩
  · rintro ⟨e, ax, hAx, he⟩
    exact ⟨ax, hAx, he.isAbbreviation, he.named⟩

/-- The graph of the candidates has the dependencies as they are written. -/
theorem mentions_candidatesOf : (candidatesOf axioms).Mentions t u ↔ DependsOn axioms t u := by
  rw [DependsOn, ← contains_candidatesOf hAxioms]
  simp only [← hasMember_candidatesOf hAxioms]
  constructor
  · rintro ⟨s, hGet, ⟨e, he, hu⟩, hContains⟩
    exact ⟨⟨e, ⟨s, hGet, he⟩, hu⟩, hContains⟩
  · rintro ⟨⟨e, ⟨s, hGet, he⟩, hu⟩, hContains⟩
    exact ⟨s, hGet, ⟨e, he, hu⟩, hContains⟩

/-- The candidates that are not ambiguous are the names that one expression defines. -/
theorem existsUnique_defines_iff :
    (∃! e, Defines axioms n e) ↔ (∃ e, Defines axioms n e) ∧ n ∉ ambiguousOf axioms := by
  simp only [← hasMember_candidatesOf hAxioms]
  constructor
  · rintro ⟨e, he, hOnly⟩
    refine ⟨⟨e, he⟩, fun hSeveral => ?_⟩
    obtain ⟨s, hGet, hLarge⟩ := SortedMap.mem_keys_filter.1 hSeveral
    have hSmall : s.size ≤ 1 := SortedSet.size_le_one fun e' he' => hOnly e' ⟨s, hGet, he'⟩
    exact absurd (of_decide_eq_true hLarge) (Nat.not_lt.2 hSmall)
  · rintro ⟨⟨e, s, hGet, he⟩, hSingle⟩
    refine ⟨e, ⟨s, hGet, he⟩, ?_⟩
    rintro e' ⟨s', hGet', he'⟩
    obtain rfl := Option.some.inj (hGet.symm.trans hGet')
    refine SortedSet.eq_of_size_le_one (Nat.le_of_not_lt fun hLarge => hSingle ?_) he' he
    exact SortedMap.mem_keys_filter.2 ⟨s, hGet, decide_eq_true hLarge⟩

/-- The names that become symbols, by what the axioms say. -/
theorem contains_expansionsOf_iff :
    (expansionsOf axioms).contains n = true ↔ (∃! e, Defines axioms n e) ∧
      ¬ ∃ chain : Nat → Iri, chain 0 = n ∧ ∀ k, DependsOn axioms (chain k) (chain (k + 1)) := by
  have hDefined : (∃ e, ∃ ax ∈ axioms, ax.Abbreviates n e) ↔ ∃ e, Defines axioms n e :=
    exists_congr fun _ =>
      DefinitionIndex.mem_abbreviations.symm.trans (hasMember_candidatesOf hAxioms)
  rw [contains_expansionsOf, hDefined, ← and_assoc, existsUnique_defines_iff hAxioms,
    DependencyGraph.mem_cyclic_iff_chain]
  simp only [mentions_candidatesOf hAxioms]

end

/-! ## Definitions of symbols -/

/-- The axioms that define the symbols define them by their expansions. -/
theorem mem_validDefinitions (hAxioms : ∀ ax ∈ axioms, ax.Canonical) :
    ax ∈ (declaredOf axioms options).validDefinitions ↔
      ∃ n X, (expansionsOf axioms).get? n = some X ∧ ax = .define n X := by
  have hOnly : ∀ {n X}, (expansionsOf axioms).get? n = some X → ∀ ax ∈ axioms,
      ax.Abbreviates n X → ax = .define n X := fun hX ax hMem hAbbreviates =>
    Axiom.eq_define (hAxioms ax hMem) hAbbreviates fun e he =>
      (abbreviates_iff_of_expansion hX).1 ⟨ax, hMem, he⟩
  rw [validDefinitions, SortedSet.mem_unions]
  constructor
  · rintro ⟨s, hs, hMem⟩
    obtain ⟨n, hGet⟩ := SortedMap.mem_values.1 hs
    obtain ⟨hGet, hValid⟩ := SortedMap.get?_filter.1 hGet
    rw [Bool.and_eq_true, decide_eq_true_eq, decide_eq_true_eq] at hValid
    obtain ⟨hAx, hAbbreviation, hn⟩ := DefinitionIndex.mem_definitions.1 ⟨s, hGet, hMem⟩
    obtain ⟨e, he⟩ := hAbbreviation.exists_abbreviates hn
    obtain ⟨X, hX⟩ := SortedMap.contains_iff.1
      (contains_expansionsOf.2 ⟨⟨e, ax, hAx, he⟩, hValid⟩)
    obtain rfl := (abbreviates_iff_of_expansion hX).1 ⟨ax, hAx, he⟩
    exact ⟨n, e, hX, hOnly hX ax hAx he⟩
  · rintro ⟨n, X, hX, rfl⟩
    obtain ⟨ax, hAx, hAbbreviates⟩ := (abbreviates_iff_of_expansion hX).2 rfl
    obtain ⟨s, hGet, hMem⟩ := DefinitionIndex.mem_definitions.2
      ⟨hAx, hAbbreviates.isAbbreviation, hAbbreviates.named⟩
    have hValid := (contains_expansionsOf.1 (SortedMap.contains_iff.2 ⟨X, hX⟩)).2
    refine ⟨s, SortedMap.mem_values.2 ⟨n, SortedMap.get?_filter.2 ⟨hGet, ?_⟩⟩, ?_⟩
    · rw [Bool.and_eq_true, decide_eq_true_eq, decide_eq_true_eq]
      exact hValid
    · rwa [← hOnly hX ax hAx hAbbreviates]

/-- The expansion axioms of the symbols are listed once each. -/
theorem expansionAxioms_declaredOf :
    (declaredOf axioms options).glossary.expansionAxioms =
      (expansionsOf axioms).toList.map fun x => .define x.1 x.2 := by
  show ((expansionsOf axioms).mapValues (entryOf axioms)).values.map _ = _
  rw [SortedMap.values, SortedMap.mapValues, List.map_map, List.map_map]
  rfl

theorem nodup_expansionAxioms :
    (declaredOf axioms options).glossary.expansionAxioms.Nodup := by
  rw [expansionAxioms_declaredOf]
  refine List.pairwise_map.2 (List.Pairwise.imp_of_mem ?_ (List.pairwise_map.1
    (SortedMap.keys_nodup (m := expansionsOf axioms))))
  intro x y _ hy hNe hSame
  exact hNe (Axiom.name_of_define (name?_of_expansion (SortedMap.get?_eq_some_iff.2 hy)) hSame)

/-! ## Reading symbols off axioms -/

/-- Reading symbols off some axioms never fails. A name becomes a symbol exactly when the axioms
define it by one complex expression only and no endless chain of dependencies starts at it. The
axioms that define the symbols are then their expansion axioms, and there are as many of them as
there are symbols. -/
theorem ofList_accepts (hAxioms : ∀ ax ∈ axioms, ax.Canonical) (options : Options) :
    ∃ d, (ofList axioms options).result = .ok d ∧
      (∀ n, d.glossary.contains n = true ↔ (∃! e, Defines axioms n e) ∧
        ¬ ∃ chain : Nat → Iri, chain 0 = n ∧ ∀ k, DependsOn axioms (chain k) (chain (k + 1))) ∧
      d.validDefinitions = .ofList d.glossary.expansionAxioms ∧
      d.validDefinitions.size = d.glossary.size := by
  have hDefinitions : (declaredOf axioms options).validDefinitions =
      .ofList (declaredOf axioms options).glossary.expansionAxioms := by
    apply SortedSet.ext
    intro ax
    rw [mem_validDefinitions hAxioms, SortedSet.mem_ofList, expansionAxioms_declaredOf,
      List.mem_map]
    constructor
    · rintro ⟨n, X, hX, rfl⟩
      exact ⟨(n, X), SortedMap.get?_eq_some_iff.1 hX, rfl⟩
    · rintro ⟨x, hx, rfl⟩
      exact ⟨x.1, x.2, SortedMap.get?_eq_some_iff.2 hx, rfl⟩
  refine ⟨_, ofList_result hAxioms options, fun n => ?_, hDefinitions, ?_⟩
  · rw [← contains_expansionsOf_iff hAxioms, ← contains_entriesOf]
    rfl
  · rw [hDefinitions, SortedSet.size_ofList nodup_expansionAxioms, Glossary.expansionAxioms,
      List.length_map]
    exact List.length_map _

/-- A definition that is repeated, a name that needs itself and one that needs it, and an ambiguous
name that closes a circle with an unambiguous one. -/
theorem ofList_accepts_repeated :
    let link (p n : String) : ClassExpression := .quantified .existential (.named ⟨p⟩) (.named ⟨n⟩)
    let axioms : List Axiom := [
      .equivalent [.named ⟨"M"⟩, link "r" "C"],
      .equivalent [.named ⟨"N"⟩, link "s" "M"],
      .equivalent [.named ⟨"M"⟩, link "r" "C"],
      .equivalent [.named ⟨"K"⟩, link "r" "K"],
      .equivalent [.named ⟨"L"⟩, link "r" "K"],
      .equivalent [.named ⟨"S"⟩, link "r" "T"],
      .equivalent [.named ⟨"T"⟩, link "r" "C", link "r" "S"]]
    (∀ ax ∈ axioms, ax.Canonical) ∧
    ∃ d, (ofList axioms {}).result = .ok d ∧
      (∀ n, d.glossary.contains n = true ↔ (∃! e, Defines axioms n e) ∧
        ¬ ∃ chain : Nat → Iri, chain 0 = n ∧ ∀ k, DependsOn axioms (chain k) (chain (k + 1))) ∧
      d.validDefinitions = .ofList d.glossary.expansionAxioms ∧
      d.validDefinitions.size = d.glossary.size ∧ d.glossary.size = 2 := by
  intro link axioms
  have hAxioms : ∀ ax ∈ axioms, ax.Canonical := by decide +kernel
  obtain ⟨d, hRun, hSymbols, hDefinitions, hSize⟩ := ofList_accepts hAxioms {}
  have hTwo : ∀ d, (ofList axioms {}).result = .ok d → d.glossary.size = 2 := by decide +kernel
  exact ⟨hAxioms, d, hRun, hSymbols, hDefinitions, hSize, hTwo d hRun⟩

end Declared

end OntoFold
