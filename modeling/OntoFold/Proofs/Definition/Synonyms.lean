import OntoFold.Proofs.Glossary.Acceptance

/-!
# Synonyms, and what an index holds

An equivalence of names only makes them synonyms of each other. Together with the abbreviations
this is everything that the index of a list of axioms holds, and it depends neither on the order of
the axioms nor on their repetitions.

* `DefinitionIndex.hasMember_synonyms`: the synonyms that an index holds for a name.
* `DefinitionIndex.ofList_congr`: lists with the same axioms have the same index.
* `DefinitionIndex.indexes_ofList`: what the index of a list says about the axioms.
-/

namespace OntoFold

/-- The names are made synonyms by at least two operands, none of which is complex. -/
theorem DefinitionKind.isSynonym_ofCounts {named complex : Nat} :
    (∃ kind, ofCounts named complex = some kind ∧ kind.isSynonym = true) ↔
      2 ≤ named ∧ complex = 0 := by
  constructor
  · rintro ⟨kind, hKind, hSynonym⟩
    unfold ofCounts at hKind
    split at hKind
    · cases hKind
      cases hSynonym
    split at hKind
    · omega
    split at hKind
    · cases hKind
      cases hSynonym
    split at hKind
    · omega
    split at hKind
    · cases hKind
      cases hSynonym
    · cases hKind
  · rintro ⟨hNamed, rfl⟩
    by_cases hTwo : named = 2
    · subst hTwo
      exact ⟨simpleSynonym, rfl, rfl⟩
    · refine ⟨enumerativeSynonym, ?_, rfl⟩
      have hThree : 3 ≤ named := by omega
      simp [ofCounts, hTwo, hThree]

theorem DefinitionKind.not_isAbbreviation_of_isSynonym {kind : DefinitionKind}
    (h : kind.isSynonym = true) : ¬ kind.isAbbreviation = true := by
  cases kind with
  | simpleSynonym => exact Bool.false_ne_true
  | enumerativeSynonym => exact Bool.false_ne_true
  | _ => cases h

namespace Axiom

variable {ax : Axiom} {m n : Iri}

/-- The axiom is an equivalence of names only, at least two of them. -/
def IsSynonymy (ax : Axiom) : Prop :=
  ∃ kind, DefinitionKind.of? ax = some kind ∧ kind.isSynonym = true

/-- The axiom is an equivalence with at least two operands, all of them names, and both names are
among them. -/
def Equates (ax : Axiom) (m n : Iri) : Prop :=
  ∃ operands, ax = .equivalent operands ∧ 2 ≤ operands.length ∧
    (∀ e ∈ operands, ∃ k, e = .named k) ∧ .named m ∈ operands ∧ .named n ∈ operands

theorem isSynonymy_equivalent {operands : List ClassExpression} :
    (Axiom.equivalent operands).IsSynonymy ↔
      2 ≤ operands.length ∧ ∀ e ∈ operands, ∃ k, e = .named k := by
  have hNamed : (operands.countP fun e => !e.isNamed) = 0 ↔ ∀ e ∈ operands, ∃ k, e = .named k := by
    rw [List.countP_eq_zero]
    refine forall₂_congr fun e _ => ?_
    cases e <;> simp [ClassExpression.isNamed, ClassExpression.name?]
  rw [IsSynonymy, DefinitionKind.of?, DefinitionKind.isSynonym_ofCounts, hNamed]
  refine and_congr_left fun hAll => ?_
  rw [List.countP_eq_length.2]
  intro e he
  obtain ⟨k, rfl⟩ := hAll e he
  rfl

theorem equates_iff :
    ax.Equates m n ↔ ax.IsSynonymy ∧ m ∈ ax.operands.filterMap ClassExpression.name? ∧
      n ∈ ax.operands.filterMap ClassExpression.name? := by
  rw [ClassExpression.mem_filterMap_name?, ClassExpression.mem_filterMap_name?]
  constructor
  · rintro ⟨operands, rfl, hTwo, hNamed, hm, hn⟩
    exact ⟨isSynonymy_equivalent.2 ⟨hTwo, hNamed⟩, hm, hn⟩
  · rintro ⟨hSynonymy, hm, hn⟩
    cases ax with
    | equivalent operands =>
      obtain ⟨hTwo, hNamed⟩ := isSynonymy_equivalent.1 hSynonymy
      exact ⟨operands, rfl, hTwo, hNamed, hm, hn⟩
    | _ =>
      obtain ⟨kind, hKind, -⟩ := hSynonymy
      cases hKind

theorem Equates.symm (h : ax.Equates m n) : ax.Equates n m := by
  obtain ⟨operands, hAx, hTwo, hNamed, hm, hn⟩ := h
  exact ⟨operands, hAx, hTwo, hNamed, hn, hm⟩

/-- A set of at least two names holds another name beside each of them. -/
theorem Equates.exists_ne (hAx : ax.Canonical) (h : ax.Equates n n) :
    ∃ m, m ≠ n ∧ ax.Equates n m := by
  obtain ⟨operands, rfl, hTwo, hNamed, hn, -⟩ := h
  have hNodup : operands.Nodup :=
    Ascending.nodup (of_decide_eq_true (Bool.and_eq_true_iff.1 hAx).1)
  by_contra hNone
  have hSub : operands ⊆ [.named n] := by
    intro e he
    obtain ⟨m, rfl⟩ := hNamed e he
    by_contra hNe
    refine hNone ⟨m, fun hEq => hNe ?_, operands, rfl, hTwo, hNamed, hn, he⟩
    rw [hEq]
    exact List.mem_singleton_self _
  exact absurd (List.subperm_of_subset hNodup hSub).length_le (Nat.not_le.2 hTwo)

end Axiom

namespace DefinitionIndex

variable {index : DefinitionIndex} {axioms : List Axiom} {ax : Axiom} {m n : Iri}
  {e : ClassExpression}

/-! ## Adding one axiom -/

theorem synonyms_add_of_isSynonymy (h : ax.IsSynonymy) :
    (index.add ax).synonyms =
      (index.addSynonyms (ax.operands.filterMap ClassExpression.name?)).synonyms := by
  obtain ⟨kind, hKind, hSynonym⟩ := h
  unfold add
  rw [hKind]
  dsimp only
  rw [if_neg (DefinitionKind.not_isAbbreviation_of_isSynonym hSynonym), if_pos hSynonym]
  rfl

/-- Other axioms leave the synonyms alone. -/
theorem synonyms_add_of_not_isSynonymy (h : ¬ ax.IsSynonymy) :
    (index.add ax).synonyms = index.synonyms := by
  cases hKind : DefinitionKind.of? ax with
  | none => rw [add_of_none hKind]
  | some kind =>
    unfold add
    rw [hKind]
    dsimp only
    rw [if_neg fun hSynonym => h ⟨kind, hKind, hSynonym⟩]
    split
    · cases (ax.operands.filterMap ClassExpression.name?).head? <;> rfl
    · rfl

/-- One axiom adds the other names that it equates with a name. -/
theorem hasMember_synonyms_add :
    (index.add ax).synonyms.HasMember n m ↔
      index.synonyms.HasMember n m ∨ m ≠ n ∧ ax.Equates n m := by
  rw [Axiom.equates_iff]
  by_cases hAx : ax.IsSynonymy
  · rw [synonyms_add_of_isSynonymy hAx, addSynonyms, SortedMap.hasMember_foldl_extendAll]
    refine or_congr Iff.rfl ?_
    simp only [List.mem_filter, decide_eq_true_eq]
    constructor
    · rintro ⟨k, hk, rfl, hm, hNe⟩
      exact ⟨hNe, hAx, hk, hm⟩
    · rintro ⟨hNe, -, hn, hm⟩
      exact ⟨n, hn, rfl, hm, hNe⟩
  · rw [synonyms_add_of_not_isSynonymy hAx]
    exact (or_iff_left fun h => hAx h.2.1).symm

theorem contains_synonyms_add :
    (index.add ax).synonyms.contains n = true ↔
      index.synonyms.contains n = true ∨ ax.Equates n n := by
  rw [Axiom.equates_iff, and_self]
  by_cases hAx : ax.IsSynonymy
  · rw [synonyms_add_of_isSynonymy hAx, addSynonyms, SortedMap.contains_foldl_extendAll]
    simp [hAx]
  · rw [synonyms_add_of_not_isSynonymy hAx]
    exact (or_iff_left fun h => hAx h.1).symm

theorem contains_definitions_add :
    (index.add ax).definitions.contains n = true ↔
      index.definitions.contains n = true ∨ ax.IsAbbreviation ∧ .named n ∈ ax.operands := by
  by_cases hAx : ax.IsAbbreviation
  · obtain ⟨m, hm⟩ := hAx.exists_named
    rw [(add_of_isAbbreviation hAx hm).2, SortedMap.contains_extend]
    refine or_congr Iff.rfl ⟨?_, fun h => hAx.eq_of_named h.2 hm⟩
    rintro rfl
    exact ⟨hAx, hm⟩
  · rw [(add_of_not_isAbbreviation hAx).2]
    exact (or_iff_left fun h => hAx h.1).symm

/-! ## The index of a list -/

/-- The index holds for a name the other names that some axiom equates with it. -/
theorem hasMember_synonyms :
    (ofList axioms).synonyms.HasMember n m ↔ m ≠ n ∧ ∃ ax ∈ axioms, ax.Equates n m := by
  rw [ofList, foldl_add_iff (fun index => index.synonyms.HasMember n m)
    fun _ _ => hasMember_synonyms_add, or_iff_right SortedMap.not_hasMember_empty]
  constructor
  · rintro ⟨ax, hAx, hNe, hEquates⟩
    exact ⟨hNe, ax, hAx, hEquates⟩
  · rintro ⟨hNe, ax, hAx, hEquates⟩
    exact ⟨ax, hAx, hNe, hEquates⟩

theorem contains_synonyms :
    (ofList axioms).synonyms.contains n = true ↔ ∃ ax ∈ axioms, ax.Equates n n := by
  rw [ofList, foldl_add_iff (fun index => index.synonyms.contains n = true)
    fun _ _ => contains_synonyms_add]
  exact or_iff_right Bool.false_ne_true

theorem contains_definitions :
    (ofList axioms).definitions.contains n = true ↔
      ∃ ax ∈ axioms, ax.IsAbbreviation ∧ .named n ∈ ax.operands := by
  rw [ofList, foldl_add_iff (fun index => index.definitions.contains n = true)
    fun _ _ => contains_definitions_add]
  exact or_iff_right Bool.false_ne_true

theorem get?_kinds {kind : DefinitionKind} :
    (ofList axioms).kinds.get? ax = some kind ↔
      ax ∈ axioms ∧ DefinitionKind.of? ax = some kind := by
  rw [ofList, kinds_foldl_add fun x k hNone => by cases hNone]
  exact or_iff_right fun hNone => by cases hNone

theorem ext {index other : DefinitionIndex}
    (hAbbreviations : index.abbreviations = other.abbreviations)
    (hDefinitions : index.definitions = other.definitions)
    (hSynonyms : index.synonyms = other.synonyms) (hKinds : index.kinds = other.kinds) :
    index = other := by
  cases index
  cases other
  congr

/-- Neither the order of the axioms nor their repetitions matter. -/
theorem ofList_congr {xs ys : List Axiom} (h : ∀ ax, ax ∈ xs ↔ ax ∈ ys) :
    ofList xs = ofList ys := by
  apply ext
  · apply SortedMap.ext_contains
    · simp only [contains_abbreviations, h, implies_true]
    · simp only [mem_abbreviations, h, implies_true]
  · apply SortedMap.ext_contains
    · simp only [contains_definitions, h, implies_true]
    · simp only [mem_definitions, h, implies_true]
  · apply SortedMap.ext_contains
    · simp only [contains_synonyms, h, implies_true]
    · simp only [hasMember_synonyms, h, implies_true]
  · refine SortedMap.ext fun ax => Option.ext fun kind => ?_
    rw [get?_kinds, get?_kinds, h]

/-! ## What an index says -/

/-- An index describes some axioms. Where it holds a set for a name, the set has members. -/
structure Indexes (index : DefinitionIndex) (axioms : List Axiom) : Prop where
  abbreviations : ∀ n e, index.abbreviations.HasMember n e ↔ ∃ ax ∈ axioms, ax.DefinesAs n e
  definitions : ∀ n ax,
    index.definitions.HasMember n ax ↔ ax ∈ axioms ∧ ∃ e, ax.DefinesAs n e
  isDefinition : ∀ ax, index.isDefinition ax = true ↔ ∃ n, index.definitions.HasMember n ax
  synonyms : ∀ n m, index.synonyms.HasMember n m ↔ m ≠ n ∧ ∃ ax ∈ axioms, ax.Equates n m
  symmetric : ∀ n m, index.synonyms.HasMember n m → index.synonyms.HasMember m n
  irreflexive : ∀ n, ¬ index.synonyms.HasMember n n
  kinds : ∀ ax kind,
    index.kinds.get? ax = some kind ↔ ax ∈ axioms ∧ DefinitionKind.of? ax = some kind
  peopled : index.abbreviations.Peopled ∧ index.definitions.Peopled ∧ index.synonyms.Peopled

/-- The index of a list says exactly which names the axioms abbreviate and by what, which axioms do
so, and which names they make synonyms. Lists with the same axioms have the same index. -/
theorem indexes_ofList (hAxioms : ∀ ax ∈ axioms, ax.Canonical) :
    (ofList axioms).Indexes axioms ∧
      ∀ others : List Axiom, (∀ ax, ax ∈ others ↔ ax ∈ axioms) → ofList others = ofList axioms := by
  refine ⟨?_, fun others h => ofList_congr h⟩
  constructor
  case abbreviations =>
    intro n e
    rw [mem_abbreviations]
    exact exists_congr fun ax => and_congr_right fun hAx =>
      Axiom.abbreviates_iff_definesAs (hAxioms ax hAx)
  case definitions =>
    intro n ax
    rw [mem_definitions]
    refine and_congr_right fun hAx => ?_
    simp only [← Axiom.abbreviates_iff_definesAs (hAxioms ax hAx)]
    constructor
    · rintro ⟨hAbbreviation, hn⟩
      exact hAbbreviation.exists_abbreviates hn
    · rintro ⟨e, he⟩
      exact ⟨he.isAbbreviation, he.named⟩
  case isDefinition =>
    intro ax
    rw [isDefinition_ofList]
    simp only [mem_definitions, exists_and_left]
    exact and_congr_right fun _ => (and_iff_left_of_imp fun h => h.exists_named).symm
  case synonyms => exact fun n m => hasMember_synonyms
  case symmetric =>
    intro n m h
    obtain ⟨hNe, ax, hAx, hEquates⟩ := hasMember_synonyms.1 h
    exact hasMember_synonyms.2 ⟨hNe.symm, ax, hAx, hEquates.symm⟩
  case irreflexive => exact fun n h => (hasMember_synonyms.1 h).1 rfl
  case kinds => exact fun ax kind => get?_kinds
  case peopled =>
    refine ⟨SortedMap.peopled_iff.2 fun n hn => ?_, SortedMap.peopled_iff.2 fun n hn => ?_,
      SortedMap.peopled_iff.2 fun n hn => ?_⟩
    · obtain ⟨ax, hAx, hAbbreviation, hNamed⟩ := contains_abbreviations.1 hn
      obtain ⟨e, he⟩ := hAbbreviation.exists_abbreviates hNamed
      exact ⟨e, mem_abbreviations.2 ⟨ax, hAx, he⟩⟩
    · obtain ⟨ax, hAx, hAbbreviation, hNamed⟩ := contains_definitions.1 hn
      exact ⟨ax, mem_definitions.2 ⟨hAx, hAbbreviation, hNamed⟩⟩
    · obtain ⟨ax, hAx, hEquates⟩ := contains_synonyms.1 hn
      obtain ⟨m, hNe, hOther⟩ := hEquates.exists_ne (hAxioms ax hAx)
      exact ⟨m, hasMember_synonyms.2 ⟨hNe, ax, hAx, hOther⟩⟩

/-- A name with two definitions, one of which is ambiguous and one given twice, a name that has
synonyms by two axioms, and an axiom that is neither an abbreviation nor a synonymy. Synonyms of a
synonym are not synonyms. -/
theorem indexes_ofList_overlapping :
    let link (p n : String) : ClassExpression := .quantified .existential (.named ⟨p⟩) (.named ⟨n⟩)
    let axioms : List Axiom := [
      .equivalent [.named ⟨"N"⟩, link "r" "C"],
      .equivalent [.named ⟨"N"⟩, .named ⟨"P"⟩],
      .equivalent [.named ⟨"N"⟩, link "r" "C", link "s" "D"],
      .equivalent [.named ⟨"P"⟩, .named ⟨"Q"⟩, .named ⟨"R"⟩],
      .equivalent [.named ⟨"N"⟩, .named ⟨"Q"⟩, link "r" "C", link "s" "D"],
      .equivalent [.named ⟨"N"⟩, link "r" "C"]]
    (∀ ax ∈ axioms, ax.Canonical) ∧ (ofList axioms).Indexes axioms ∧
      ofList axioms.reverse = ofList axioms ∧
      ((ofList axioms).synonyms.get? ⟨"N"⟩).map SortedSet.toList = some [⟨"P"⟩] ∧
      ((ofList axioms).synonyms.get? ⟨"P"⟩).map SortedSet.toList = some [⟨"N"⟩, ⟨"Q"⟩, ⟨"R"⟩] := by
  intro link axioms
  have hAxioms : ∀ ax ∈ axioms, ax.Canonical := by decide +kernel
  obtain ⟨hIndexes, hSame⟩ := indexes_ofList hAxioms
  refine ⟨hAxioms, hIndexes, hSame axioms.reverse fun ax => List.mem_reverse, ?_, ?_⟩
  · decide +kernel
  · decide +kernel

end DefinitionIndex

end OntoFold
