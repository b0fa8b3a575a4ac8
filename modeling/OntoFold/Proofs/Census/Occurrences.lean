import Mathlib.Data.Finset.Max
import OntoFold.Ontology.Census
import OntoFold.Proofs.Order.Entries
import OntoFold.Proofs.Order.Grouping
import OntoFold.Proofs.Rewriting.Axioms

/-!
# Occurrences in a corpus

The nodes of the tree of an axiom that hold class expressions are the positions of the axiom, so a
census counts positions. An expression that another one dominates lies inside an expression that
occurs as often and that nothing dominates: the largest of those around it that occur as often.

* `Census.classNodes_eq`: the class expressions at the nodes of the tree of an axiom.
* `Census.mem_bottomUp`: the expressions of a census.
* `Census.occurrences_ofList`: how often an expression occurs.
* `Census.exists_undominated`: an undominated expression around an expression.
-/

namespace OntoFold

/-! ## Class expressions in trees -/

theorem Forest.toList_eq_flatMap {α : Type u} (f : Forest α) :
    f.toList = f.trees.flatMap Tree.toList := by
  induction f with
  | nil => rfl
  | cons head below rest _ ihRest => simp [trees, Tree.toList, ihRest]

namespace Phrase

/-- The class expressions at the nodes of the tree of a phrase. -/
def classNodes (p : Phrase) : List ClassExpression :=
  (p.encode none).toList.filterMap fun l => l.phrase.class?

/-- The class expressions at the positions of a phrase. -/
def positions : Phrase → List ClassExpression
  | .statement ax => ax.positions
  | .term t => (t.classExpression?.map ClassExpression.positions).getD []
  | _ => []

theorem classNodes_eq (p : Phrase) :
    p.classNodes = p.class?.toList ++ p.parts.flatMap fun l => l.phrase.classNodes := by
  have hBelow : p.branches.toList.filterMap (fun l => l.phrase.class?) =
      p.parts.flatMap fun l => l.phrase.classNodes := by
    rw [Forest.toList_eq_flatMap, trees_branches, List.flatMap_map, List.filterMap_flatMap]
    exact List.flatMap_congr fun l _ => rfl
  rw [← hBelow]
  cases hClass : p.class? with
  | none => exact List.filterMap_cons_none hClass
  | some e => exact List.filterMap_cons_some hClass

end Phrase

theorem DataRange.flatMap_parts (range : DataRange) :
    (range.parts.flatMap fun l => l.phrase.positions) = [] := by
  cases range <;> simp [parts, List.flatMap_map, phrase, Phrase.positions, Term.classExpression?]

/-- The parts of an expression hold what its operands hold. -/
theorem ClassExpression.flatMap_parts (e : ClassExpression) :
    (e.parts.flatMap fun l => l.phrase.positions) = e.operands.flatMap positions := by
  cases e with
  | cardinality bound count property filler =>
    cases filler <;>
      simp [parts, operands, ObjectProperty.phrase, Phrase.positions, Term.classExpression?]
  | dataCardinality bound count property range =>
    cases range <;>
      simp [parts, operands, DataRange.phrase, Phrase.positions, Term.classExpression?]
  | _ =>
    simp [parts, operands, List.flatMap_map, ObjectProperty.phrase, DataRange.phrase,
      Phrase.positions, Term.classExpression?]

theorem Axiom.flatMap_parts (ax : Axiom) :
    (ax.parts.flatMap fun l => l.phrase.positions) = ax.positions := by
  cases ax <;>
    simp [parts, positions, operands, definedClass?, List.flatMap_map, ClassExpression.positions,
      Phrase.positions, Term.classExpression?]

namespace Phrase

/-- The parts of a phrase hold the class expressions below its own one. -/
theorem positions_eq (p : Phrase) :
    p.positions = p.class?.toList ++ p.parts.flatMap fun l => l.phrase.positions := by
  cases p with
  | statement ax => exact ax.flatMap_parts.symm
  | term t =>
    cases t with
    | classExpression e =>
      exact e.positions_eq.trans (congrArg (List.cons e) e.flatMap_parts.symm)
    | dataRange range => exact range.flatMap_parts.symm
    | objectProperty property => cases property <;> rfl
    | _ => rfl
  | count n => rfl
  | chain properties =>
    simp [parts, List.flatMap_map, ObjectProperty.phrase, positions, class?, term?,
      Term.classExpression?]

/-- Trees hold class expressions where phrases do. -/
theorem classNodes_eq_positions (p : Phrase) : p.classNodes = p.positions := by
  induction p using parts_induction with
  | step p ih => rw [classNodes_eq, List.flatMap_congr ih, ← positions_eq]

end Phrase

namespace ClassExpression

variable {e t : ClassExpression}

/-- What lies strictly inside an expression lies inside an operand. -/
theorem mem_strictlyNested : t ∈ e.strictlyNested ↔ ∃ o ∈ e.operands, t ∈ o.positions := by
  rw [strictlyNested, SortedSet.mem_erase, nested, SortedSet.mem_ofList, mem_positions_iff]
  constructor
  · rintro ⟨rfl | hInside, hNe⟩
    · exact absurd rfl hNe
    · exact hInside
  · rintro ⟨o, ho, ht⟩
    refine ⟨Or.inr ⟨o, ho, ht⟩, ?_⟩
    rintro rfl
    exact Nat.lt_irrefl _ (size_lt_of_mem_positions ho ht)

theorem size_lt_of_mem_strictlyNested (h : t ∈ e.strictlyNested) : t.size < e.size := by
  obtain ⟨o, ho, ht⟩ := mem_strictlyNested.1 h
  exact size_lt_of_mem_positions ho ht

theorem mem_positions_of_mem_strictlyNested (h : t ∈ e.strictlyNested) : t ∈ e.positions :=
  mem_positions_iff.2 (Or.inr (mem_strictlyNested.1 h))

end ClassExpression

/-! ## Counting -/

namespace Census

variable {axioms : List Axiom} {e inner outer : ClassExpression} {options : Options}

theorem classNodes_eq (ax : Axiom) : classNodes ax = ax.positions :=
  (Phrase.statement ax).classNodes_eq_positions

/-- Counting the members of a list adds to what was counted before. -/
theorem get?_tally {es : List ClassExpression} {counts : SortedMap ClassExpression Nat} :
    ((es.foldl (fun m e => m.alter e fun n => n.getD 0 + 1) counts).get? e).getD 0 =
      (counts.get? e).getD 0 + es.count e := by
  induction es generalizing counts with
  | nil => rfl
  | cons x es ih =>
    rw [List.foldl_cons, ih, SortedMap.get?_alter, List.count_cons]
    by_cases hSame : e = x
    · subst hSame
      rw [if_pos Std.ReflOrd.compare_self, if_pos (beq_self_eq_true e), Option.getD_some]
      omega
    · rw [if_neg fun hEq => hSame (Std.LawfulEqOrd.eq_of_compare hEq),
        if_neg fun hEq => hSame (eq_of_beq hEq).symm]
      rfl

theorem flatMap_classNodes (axioms : List Axiom) :
    axioms.flatMap classNodes = axioms.flatMap Axiom.positions :=
  List.flatMap_congr fun ax _ => classNodes_eq ax

/-- A census counts positions. -/
theorem occurrences_ofList (axioms : List Axiom) (e : ClassExpression) :
    (ofList axioms).occurrences e = (axioms.flatMap Axiom.positions).count e := by
  rw [← flatMap_classNodes]
  exact get?_tally.trans (Nat.zero_add _)

theorem mem_expressions :
    e ∈ SortedSet.ofList (axioms.flatMap fun ax => ax.nested.toList) ↔
      ∃ ax ∈ axioms, e ∈ ax.positions := by
  rw [SortedSet.mem_ofList, List.mem_flatMap]
  exact exists_congr fun ax => and_congr_right fun _ => SortedSet.mem_ofList

/-- A census lists the expressions nested inside the axioms. -/
theorem mem_bottomUp : e ∈ (ofList axioms).bottomUp ↔ ∃ ax ∈ axioms, e ∈ ax.positions := by
  rw [← mem_expressions, bottomUp, SortedMap.flatMap_values, List.mem_reverse]
  exact SortedMap.mem_descending_groupBy

/-! ## Domination -/

/-- An expression is filed under everything inside it. -/
theorem hasMember_foldl_inside {es : List ClassExpression}
    {containers : SortedMap ClassExpression (SortedSet ClassExpression)} :
    (es.foldl (fun m inner => m.extend inner [e]) containers).HasMember inner outer ↔
      containers.HasMember inner outer ∨ inner ∈ es ∧ outer = e := by
  refine SortedMap.hasMember_foldl_extend.trans (or_congr Iff.rfl ?_)
  simp [eq_comm]

theorem hasMember_foldl_containers {es : List ClassExpression}
    {containers : SortedMap ClassExpression (SortedSet ClassExpression)} :
    (es.foldl (fun m e => e.strictlyNested.toList.foldl (fun m inner => m.extend inner [e]) m)
      containers).HasMember inner outer ↔
      containers.HasMember inner outer ∨ outer ∈ es ∧ inner ∈ outer.strictlyNested := by
  induction es generalizing containers with
  | nil => simp
  | cons x es ih =>
    rw [List.foldl_cons, ih, hasMember_foldl_inside, List.mem_cons, or_and_right, or_assoc]
    refine or_congr Iff.rfl (or_congr ⟨?_, ?_⟩ Iff.rfl)
    · rintro ⟨hInside, rfl⟩
      exact ⟨rfl, hInside⟩
    · rintro ⟨rfl, hInside⟩
      exact ⟨hInside, rfl⟩

/-- The expressions around an expression are those of the corpus that have it inside. -/
theorem hasMember_containers :
    (ofList axioms).containers.HasMember inner outer ↔
      (∃ ax ∈ axioms, outer ∈ ax.positions) ∧ inner ∈ outer.strictlyNested := by
  rw [← mem_expressions, ← SortedSet.mem_toList]
  exact hasMember_foldl_containers.trans (or_iff_right SortedMap.not_hasMember_empty)

/-- An expression is dominated by an expression around it that occurs as often. -/
theorem dominating?_eq_none :
    (ofList axioms).dominating? e = none ↔
      ∀ outer, (∃ ax ∈ axioms, outer ∈ ax.positions) → e ∈ outer.strictlyNested →
        (ofList axioms).occurrences outer ≠ (ofList axioms).occurrences e := by
  rw [dominating?, Option.bind_eq_none_iff]
  constructor
  · intro h outer hCorpus hInside
    obtain ⟨s, hGet, hMem⟩ := hasMember_containers.2 ⟨hCorpus, hInside⟩
    simpa using List.find?_eq_none.1 (h s hGet) outer hMem
  · intro h s hGet
    refine List.find?_eq_none.2 fun outer hMem => ?_
    obtain ⟨hCorpus, hInside⟩ := hasMember_containers.1 ⟨s, hGet, hMem⟩
    simpa using h outer hCorpus hInside

/-- What occurs, occurs in some axiom. -/
theorem exists_mem_positions (h : 0 < (ofList axioms).occurrences e) :
    ∃ ax ∈ axioms, e ∈ ax.positions := by
  rw [occurrences_ofList, List.count_pos_iff] at h
  exact List.mem_flatMap.1 h

/-- Around every expression of a corpus, or in its place, there is an expression that occurs as
often and is not dominated. -/
theorem exists_undominated (he : ∃ ax ∈ axioms, e ∈ ax.positions) :
    ∃ p, (∃ ax ∈ axioms, p ∈ ax.positions) ∧ e ∈ p.positions ∧
      (ofList axioms).occurrences p = (ofList axioms).occurrences e ∧
      (ofList axioms).dominating? p = none := by
  let around := (ofList axioms).bottomUp.toFinset.filter fun p =>
    e ∈ p.positions ∧ (ofList axioms).occurrences p = (ofList axioms).occurrences e
  have hAround : ∀ p, p ∈ around ↔ (∃ ax ∈ axioms, p ∈ ax.positions) ∧ e ∈ p.positions ∧
      (ofList axioms).occurrences p = (ofList axioms).occurrences e := by
    intro p
    rw [Finset.mem_filter, List.mem_toFinset, mem_bottomUp]
  have hSelf : e ∈ around :=
    (hAround e).2 ⟨he, ClassExpression.mem_positions_iff.2 (Or.inl rfl), rfl⟩
  -- The largest of these expressions lies in no other one of them.
  obtain ⟨p, hp, hLargest⟩ := around.exists_max_image ClassExpression.size ⟨e, hSelf⟩
  obtain ⟨hCorpus, hInside, hOccurrences⟩ := (hAround p).1 hp
  refine ⟨p, hCorpus, hInside, hOccurrences, dominating?_eq_none.2 ?_⟩
  intro outer hOuter hp hSame
  have hNested := ClassExpression.mem_positions_of_mem_strictlyNested hp
  have hLarger := hLargest outer ((hAround outer).2
    ⟨hOuter, ClassExpression.mem_positions_trans hNested hInside, hSame.trans hOccurrences⟩)
  exact Nat.not_lt.2 hLarger (ClassExpression.size_lt_of_mem_strictlyNested hp)

end Census

end OntoFold
