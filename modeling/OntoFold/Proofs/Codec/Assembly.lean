import OntoFold.Proofs.Codec.Parts

/-!
# Putting phrases together

A canonical phrase is what `assemble` makes of its parts. Where the children of a node form a
set, their order does not matter.

* `Phrase.MadeOf`: some labels are the parts of a phrase, up to order where they form a set.
* `Phrase.assemble_eq_self`: assembling the parts of a canonical phrase gives the phrase.
-/

namespace OntoFold

open Label (bare)

theorem ascend_eq_of_perm {α : Type u} [Ord α] [Std.LawfulEqOrd α] [Std.TransOrd α]
    {xs ys : List α} (hPerm : xs.Perm ys) (h : Ascending ys) : ascend xs = ys := by
  rw [ascend_congr fun _ => hPerm.mem_iff, ascend_eq_self h]

/-! ## Views of parts -/

namespace Parts

variable {c d : Parts}

theorem terms_perm (h : c.Perm d) : c.terms.Perm d.terms := h.filterMap _

theorem classes_perm (h : c.Perm d) : c.classes.Perm d.classes := (h.filter _).filterMap _

theorem individuals_perm (h : c.Perm d) : c.individuals.Perm d.individuals :=
  (terms_perm h).filterMap _

theorem literals_perm (h : c.Perm d) : c.literals.Perm d.literals := (terms_perm h).filterMap _

theorem ranges_perm (h : c.Perm d) : c.ranges.Perm d.ranges := (terms_perm h).filterMap _

theorem facets_perm (h : c.Perm d) : c.facets.Perm d.facets := (terms_perm h).filterMap _

@[simp] theorem classes_operands (es : List ClassExpression) :
    classes (es.map fun e => bare (.ofClass e)) = es := by
  induction es with
  | nil => rfl
  | cons e es ih => exact congrArg (List.cons e) ih

@[simp] theorem individuals_map (is : List Individual) :
    individuals (is.map fun i => bare (.term (.individual i))) = is := by
  induction is with
  | nil => rfl
  | cons i is ih => exact congrArg (List.cons i) ih

@[simp] theorem literals_map (ls : List Literal) :
    literals (ls.map fun l => bare (.term (.literal l))) = ls := by
  induction ls with
  | nil => rfl
  | cons l ls ih => exact congrArg (List.cons l) ih

@[simp] theorem ranges_map (ds : List DataRange) :
    ranges (ds.map fun d => bare d.phrase) = ds := by
  induction ds with
  | nil => rfl
  | cons d ds ih => exact congrArg (List.cons d) ih

@[simp] theorem facets_map (fs : List Facet) :
    facets (fs.map fun f => bare (.term (.facet f))) = fs := by
  induction fs with
  | nil => rfl
  | cons f fs ih => exact congrArg (List.cons f) ih

@[simp] theorem ranges_facets (fs : List Facet) :
    ranges (fs.map fun f => bare (.term (.facet f))) = [] := by
  induction fs with
  | nil => rfl
  | cons f fs ih => exact ih

@[simp] theorem properties_map (rs : List ObjectProperty) :
    properties (rs.map fun r => bare r.phrase) = rs := by
  induction rs with
  | nil => rfl
  | cons r rs ih => exact congrArg (List.cons r) ih

/-- The only part in a position is found wherever it stands. -/
theorem classAt?_eq {position : Position} {e : ClassExpression}
    (h : (c.filter fun l => l.position = some position).Perm [⟨.ofClass e, some position⟩]) :
    c.classAt? position = some e := by
  rw [classAt?, List.perm_singleton.1 h]
  rfl

end Parts

/-! ## Assembling parts -/

/-- The labels are the parts of a phrase, in any order where they form a set. -/
def Phrase.MadeOf (p : Phrase) (children : List Label) : Prop :=
  if p.isSetValued then children.Perm p.parts else children = p.parts

theorem Phrase.madeOf_parts (p : Phrase) : p.MadeOf p.parts := by
  unfold MadeOf
  split
  · exact List.Perm.refl _
  · rfl

theorem Phrase.MadeOf.perm {p : Phrase} {c : List Label} (h : p.MadeOf c) : c.Perm p.parts := by
  unfold MadeOf at h
  split at h
  · exact h
  · rw [h]

section Assemble

variable {c : List Label}

/-- The class a disjoint union defines is found in any order of the parts. -/
theorem Phrase.classAt?_definedClass {defined : Iri} {disjuncts : List ClassExpression}
    (hc : (Phrase.statement (.disjointUnion defined disjuncts)).MadeOf c) :
    Parts.classAt? c .definedClass = some (.named defined) := by
  refine Parts.classAt?_eq ((hc.perm.filter _).trans (.of_eq ?_))
  simp [Phrase.parts, Axiom.parts]

/-- The datatype under a restriction is the only range among its parts, so it is found in any
order. -/
theorem Phrase.datatype?_restriction {base : Iri} {facets : List Facet}
    (hc : (DataRange.restriction base facets).phrase.MadeOf c) :
    Parts.datatype? c = some base := by
  have hRanges : (Parts.ranges c).Perm [DataRange.datatype base] :=
    (Parts.ranges_perm hc.perm).trans
      (.of_eq (congrArg (List.cons _) (Parts.ranges_facets facets)))
  rw [Parts.datatype?, List.perm_singleton.1 hRanges]
  rfl

theorem DataRange.assemble_eq_self {range : DataRange} (h : range.Canonical)
    (hc : range.phrase.MadeOf c) : range.assemble c = range := by
  cases range with
  | datatype iri => rfl
  | oneOf values =>
    have hPerm : (Parts.literals c).Perm values :=
      (Parts.literals_perm hc.perm).trans (.of_eq (Parts.literals_map values))
    rw [assemble, enumerate, ascend_eq_of_perm hPerm (of_decide_eq_true h)]
  | complement range =>
    obtain rfl : c = _ := hc
    rfl
  | combined connective ranges =>
    have hPerm : (Parts.ranges c).Perm ranges :=
      (Parts.ranges_perm hc.perm).trans (.of_eq (Parts.ranges_map ranges))
    have hAscending := of_decide_eq_true (Bool.and_eq_true_iff.1 h).1
    rw [assemble, combine, ascend_eq_of_perm hPerm hAscending]
  | restriction base facets =>
    have hFacets : (Parts.facets c).Perm facets :=
      (Parts.facets_perm hc.perm).trans (.of_eq (Parts.facets_map facets))
    rw [assemble, restrict, Phrase.datatype?_restriction hc,
      ascend_eq_of_perm hFacets (of_decide_eq_true h)]
    rfl

theorem ClassExpression.assemble_eq_self {e : ClassExpression} (h : e.Canonical)
    (hc : (Phrase.ofClass e).MadeOf c) : e.assemble c = e := by
  cases e with
  | combined connective operands =>
    have hPerm : (Parts.classes c).Perm operands :=
      (Parts.classes_perm hc.perm).trans (.of_eq (Parts.classes_operands operands))
    have hAscending := of_decide_eq_true (Bool.and_eq_true_iff.1 h).1
    rw [assemble, combine, ascend_eq_of_perm hPerm hAscending]
  | oneOf individuals =>
    have hPerm : (Parts.individuals c).Perm individuals :=
      (Parts.individuals_perm hc.perm).trans (.of_eq (Parts.individuals_map individuals))
    rw [assemble, enumerate, ascend_eq_of_perm hPerm (of_decide_eq_true h)]
  | cardinality bound count property filler =>
    obtain rfl : c = _ := hc
    cases filler <;> rfl
  | dataCardinality bound count property range =>
    obtain rfl : c = _ := hc
    cases range <;> rfl
  | _ =>
    obtain rfl : c = _ := hc
    rfl

theorem Term.assemble_eq_self {t : Term} (h : t.Canonical) (hc : (Phrase.term t).MadeOf c) :
    t.assemble c = t := by
  cases t with
  | classExpression e => rw [assemble, ClassExpression.assemble_eq_self h hc]
  | dataRange range => rw [assemble, DataRange.assemble_eq_self h hc]
  | objectProperty property =>
    obtain rfl : c = _ := hc
    cases property <;> rfl
  | facet f =>
    obtain rfl : c = _ := hc
    rfl
  | _ => rfl

theorem Axiom.assemble_eq_self {ax : Axiom} (h : ax.Canonical)
    (hc : (Phrase.statement ax).MadeOf c) : ax.assemble c = ax := by
  cases ax with
  | subClassOf sub super =>
    obtain rfl : c = _ := hc
    rfl
  | equivalent operands =>
    have hPerm : (Parts.classes c).Perm operands :=
      (Parts.classes_perm hc.perm).trans (.of_eq (Parts.classes_operands operands))
    have hAscending := of_decide_eq_true (Bool.and_eq_true_iff.1 h).1
    rw [assemble, equate, ascend_eq_of_perm hPerm hAscending]
  | disjoint operands =>
    have hPerm : (Parts.classes c).Perm operands :=
      (Parts.classes_perm hc.perm).trans (.of_eq (Parts.classes_operands operands))
    have hAscending := of_decide_eq_true (Bool.and_eq_true_iff.1 h).1
    rw [assemble, separate, ascend_eq_of_perm hPerm hAscending]
  | disjointUnion defined disjuncts =>
    have hPerm : (Parts.classes c).Perm disjuncts :=
      (Parts.classes_perm hc.perm).trans (.of_eq (Parts.classes_operands disjuncts))
    have hAscending := of_decide_eq_true (Bool.and_eq_true_iff.1 h).1
    rw [assemble, partition, Phrase.classAt?_definedClass hc, ascend_eq_of_perm hPerm hAscending]
    rfl

/-- A canonical phrase is put together from its parts. -/
theorem Phrase.assemble_eq_self {p : Phrase} (h : p.Canonical) (hc : p.MadeOf c) :
    p.assemble c = p := by
  cases p with
  | statement ax => rw [assemble, Axiom.assemble_eq_self h hc]
  | term t => rw [assemble, Term.assemble_eq_self h hc]
  | count n => rfl
  | chain properties =>
    obtain rfl : c = _ := hc
    exact congrArg chain (Parts.properties_map properties)

end Assemble

end OntoFold
