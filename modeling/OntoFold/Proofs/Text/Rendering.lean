import OntoFold.Proofs.Text.Values

/-!
# Reading class expressions and axioms back

The text of an axiom determines the axiom, provided that no name contains the bracket that closes
names and that no label of an individual and no language contains a space or a closing parenthesis.
Literals may contain anything. A class expression is read back by induction over it: its keyword
says which constructor wrote it, and the parts between the parentheses show their own ends.

* `ClassExpression.readsBack`: reading a class expression back.
* `Axiom.render_inj`: legible axioms with the same text are equal.
-/

namespace OntoFold

/-! ## Class expressions -/

namespace ClassExpression

mutual

def isLegible : ClassExpression → Bool
  | .named iri => iri.isLegible
  | .complement operand => isLegible operand
  | .combined _ operands => allLegible operands
  | .oneOf individuals => individuals.all Individual.isLegible
  | .quantified _ property filler => property.isLegible && isLegible filler
  | .hasValue property individual => property.isLegible && individual.isLegible
  | .hasSelf property => property.isLegible
  | .cardinality _ _ property filler => property.isLegible && isLegibleFiller filler
  | .dataQuantified _ property range => property.isLegible && range.isLegible
  | .dataHasValue property value => property.isLegible && value.isLegible
  | .dataCardinality _ _ property range =>
    property.isLegible && range.toList.all DataRange.isLegible

def allLegible : List ClassExpression → Bool
  | [] => true
  | operand :: operands => isLegible operand && allLegible operands

def isLegibleFiller : Option ClassExpression → Bool
  | none => true
  | some filler => isLegible filler

end

theorem allLegible_eq (operands : List ClassExpression) :
    allLegible operands = operands.all isLegible := by
  induction operands with
  | nil => rfl
  | cons operand operands ih => rw [allLegible, List.all_cons, ih]

theorem isLegibleFiller_eq (filler : Option ClassExpression) :
    isLegibleFiller filler = filler.toList.all isLegible := by
  cases filler with
  | none => rfl
  | some filler => exact (Bool.and_true _).symm

theorem renderAll_eq (operands : List ClassExpression) :
    renderAll operands = operands.map render := by
  induction operands with
  | nil => rfl
  | cons operand operands ih => rw [renderAll, List.map_cons, ih]

theorem renderFiller_eq (filler : Option ClassExpression) :
    renderFiller filler = filler.toList.map render := by
  cases filler <;> rfl

def frame? : ClassExpression → Option (Keyword × String)
  | .named _ => none
  | .complement operand => some (.complement, operand.render)
  | .combined connective operands =>
    some (.combined connective, separated (operands.map render))
  | .oneOf individuals => some (.oneOf, separated (individuals.map Individual.render))
  | .quantified quantifier property filler =>
    some (.quantified quantifier, property.render ++ (" " ++ filler.render))
  | .hasValue property individual =>
    some (.hasValue, property.render ++ (" " ++ individual.render))
  | .hasSelf property => some (.hasSelf, property.render)
  | .cardinality bound count property filler =>
    some (.cardinality bound, toString count ++ (" " ++ (property.render ++
      spaced (filler.toList.map render))))
  | .dataQuantified quantifier property range =>
    some (.dataQuantified quantifier, property.render ++ (" " ++ range.render))
  | .dataHasValue property value =>
    some (.dataHasValue, property.render ++ (" " ++ value.render))
  | .dataCardinality bound count property range =>
    some (.dataCardinality bound, toString count ++ (" " ++ (property.render ++
      spaced (range.toList.map DataRange.render))))

theorem frames : Frames render frame? where
  framed := by
    intro e k body h
    cases e with
    | named iri => cases h
    | combined connective operands =>
      cases h
      rw [← renderAll_eq]
      rfl
    | cardinality bound count property filler =>
      cases h
      rw [← renderFiller_eq]
      simp only [framed, ← String.append_assoc]
      rfl
    | _ =>
      cases h
      simp only [framed, ← String.append_assoc]
      rfl
  named := by
    intro e h
    cases e with
    | named iri => exact ⟨iri, rfl⟩
    | _ => cases h

/-- A class expression of the form that a keyword stands for. -/
def IsWritten : Keyword → ClassExpression → Prop
  | .complement, e => ∃ operand, e = .complement operand
  | .combined connective, e => ∃ operands, e = .combined connective operands
  | .oneOf, e => ∃ individuals, e = .oneOf individuals
  | .quantified quantifier, e =>
    ∃ x : ObjectProperty × ClassExpression, e = .quantified quantifier x.1 x.2
  | .hasValue, e => ∃ x : ObjectProperty × Individual, e = .hasValue x.1 x.2
  | .hasSelf, e => ∃ property, e = .hasSelf property
  | .cardinality bound, e =>
    ∃ x : Nat × ObjectProperty × Option ClassExpression, e = .cardinality bound x.1 x.2.1 x.2.2
  | .dataQuantified quantifier, e => ∃ x : Iri × DataRange, e = .dataQuantified quantifier x.1 x.2
  | .dataHasValue, e => ∃ x : Iri × Literal, e = .dataHasValue x.1 x.2
  | .dataCardinality bound, e =>
    ∃ x : Nat × Iri × Option DataRange, e = .dataCardinality bound x.1 x.2.1 x.2.2
  | _, _ => False

theorem isWritten {e : ClassExpression} {k : Keyword} {body : String}
    (h : e.frame? = some (k, body)) : IsWritten k e := by
  cases e with
  | named iri => cases h
  | complement operand =>
    cases h
    exact ⟨operand, rfl⟩
  | combined connective operands =>
    cases h
    exact ⟨operands, rfl⟩
  | oneOf individuals =>
    cases h
    exact ⟨individuals, rfl⟩
  | hasSelf property =>
    cases h
    exact ⟨property, rfl⟩
  | cardinality bound count property filler =>
    cases h
    exact ⟨(count, property, filler), rfl⟩
  | dataCardinality bound count property range =>
    cases h
    exact ⟨(count, property, range), rfl⟩
  | _ =>
    cases h
    exact ⟨(_, _), rfl⟩

mutual

theorem readsBack : ∀ a : ClassExpression, a.isLegible = true → ReadsBack render isLegible a
  | .named iri, ha => by
    refine frames.readsBack_name .named (fun _ => rfl) (fun _ => rfl) (fun _ => rfl) ?_ ha
    intro b h
    cases b with
    | named n => exact ⟨n, rfl⟩
    | _ => cases h
  | .complement operand, ha => by
    have hOperand := (readsBack operand ha).encloses
    exact frames.readsBack hOperand .complement (fun _ => rfl) (fun _ => rfl) (fun _ _ => isWritten)
  | .combined connective operands, ha => by
    have hOperands := encloses_separated frames.opens (allReadBack operands ha)
    exact frames.readsBack hOperands (.combined connective) (fun _ => rfl) allLegible_eq
      (fun _ _ => isWritten)
  | .oneOf individuals, ha => by
    have hIndividuals := encloses_separated Individual.opens
      fun i hi => Individual.readsBack (List.all_eq_true.1 ha i hi)
    exact frames.readsBack hIndividuals .oneOf (fun _ => rfl) (fun _ => rfl) (fun _ _ => isWritten)
  | .quantified quantifier property filler, ha => by
    obtain ⟨hProperty, hFiller⟩ := Bool.and_eq_true_iff.1 ha
    have hParts := (ObjectProperty.readsBack hProperty).followed
      (readsBack filler hFiller).encloses
    exact frames.readsBack hParts (fun x => .quantified quantifier x.1 x.2) (fun _ => rfl)
      (fun _ => rfl) (fun _ _ => isWritten)
  | .hasValue property individual, ha => by
    obtain ⟨hProperty, hIndividual⟩ := Bool.and_eq_true_iff.1 ha
    have hParts := (ObjectProperty.readsBack hProperty).followed
      (Individual.readsBack hIndividual).encloses
    exact frames.readsBack hParts (fun x => .hasValue x.1 x.2) (fun _ => rfl) (fun _ => rfl)
      (fun _ _ => isWritten)
  | .hasSelf property, ha => by
    have hProperty := (ObjectProperty.readsBack ha).encloses
    exact frames.readsBack hProperty .hasSelf (fun _ => rfl) (fun _ => rfl) (fun _ _ => isWritten)
  | .cardinality bound count property filler, ha => by
    obtain ⟨hProperty, hFiller⟩ := Bool.and_eq_true_iff.1 ha
    have hParts := (ObjectProperty.readsBack hProperty).counted (n := count)
      (fillerReadsBack filler hFiller)
    exact frames.readsBack hParts (fun x => .cardinality bound x.1 x.2.1 x.2.2) (fun _ => rfl)
      (fun x => congrArg (x.2.1.isLegible && ·) (isLegibleFiller_eq x.2.2)) (fun _ _ => isWritten)
  | .dataQuantified quantifier property range, ha => by
    obtain ⟨hProperty, hRange⟩ := Bool.and_eq_true_iff.1 ha
    have hParts := (Iri.readsBack hProperty).followed (range.readsBack hRange).encloses
    exact frames.readsBack hParts (fun x => .dataQuantified quantifier x.1 x.2) (fun _ => rfl)
      (fun _ => rfl) (fun _ _ => isWritten)
  | .dataHasValue property value, ha => by
    obtain ⟨hProperty, hValue⟩ := Bool.and_eq_true_iff.1 ha
    have hParts := (Iri.readsBack hProperty).followed (Literal.readsBack hValue).encloses
    exact frames.readsBack hParts (fun x => .dataHasValue x.1 x.2) (fun _ => rfl) (fun _ => rfl)
      (fun _ _ => isWritten)
  | .dataCardinality bound count property range, ha => by
    obtain ⟨hProperty, hRange⟩ := Bool.and_eq_true_iff.1 ha
    have hParts := (Iri.readsBack hProperty).counted (n := count)
      (fun d hd => DataRange.readsBack d (List.all_eq_true.1 hRange d hd))
    exact frames.readsBack hParts (fun x => .dataCardinality bound x.1 x.2.1 x.2.2)
      (fun _ => rfl) (fun _ => rfl) (fun _ _ => isWritten)

theorem allReadBack : ∀ operands : List ClassExpression, allLegible operands = true →
    ∀ e ∈ operands, ReadsBack render isLegible e
  | [], _, _, hMem => absurd hMem List.not_mem_nil
  | a :: operands, hAll, e, hMem => by
    obtain ⟨ha, hOperands⟩ := Bool.and_eq_true_iff.1 hAll
    rcases List.mem_cons.1 hMem with hFirst | hRest
    · rw [hFirst]
      exact readsBack a ha
    · exact allReadBack operands hOperands e hRest

theorem fillerReadsBack : ∀ filler : Option ClassExpression, isLegibleFiller filler = true →
    ∀ e ∈ filler.toList, ReadsBack render isLegible e
  | none, _, _, hMem => absurd hMem List.not_mem_nil
  | some a, ha, e, hMem => by
    rw [List.mem_singleton.1 hMem]
    exact readsBack a ha

end

end ClassExpression

/-! ## Axioms -/

namespace Axiom

/-- No name contains the bracket that closes names, and no label of an individual and no language
contains a space or a closing parenthesis. -/
def isLegible (ax : Axiom) : Bool :=
  ax.definedClass?.all Iri.isLegible && ax.operands.all ClassExpression.isLegible

abbrev Legible (ax : Axiom) : Prop := ax.isLegible = true

def frame : Axiom → Keyword × String
  | .subClassOf sub super =>
    (.subClassOf, separated ([sub, super].map ClassExpression.render))
  | .equivalent operands => (.equivalent, separated (operands.map ClassExpression.render))
  | .disjoint operands => (.disjoint, separated (operands.map ClassExpression.render))
  | .disjointUnion defined disjuncts =>
    (.disjointUnion, defined.render ++ (" " ++ separated (disjuncts.map ClassExpression.render)))

theorem render_eq (ax : Axiom) : ax.render = framed ax.frame.1 ax.frame.2 := by
  cases ax with
  | disjointUnion defined disjuncts =>
    simp only [frame, framed, ← String.append_assoc]
    rfl
  | _ => rfl

/-- The operands of a legible axiom can be read back up to the closing parenthesis. -/
theorem operands_enclosed {ax : Axiom} (h : ax.Legible) :
    Encloses (fun operands => separated (operands.map ClassExpression.render))
      (List.all · ClassExpression.isLegible) ax.operands :=
  encloses_separated ClassExpression.frames.opens fun e he =>
    e.readsBack (List.all_eq_true.1 (Bool.and_eq_true_iff.1 h).2 e he)

/-- Legible axioms with the same text are the same axiom, whatever their literals contain. -/
theorem render_inj {a b : Axiom} (ha : a.Legible) (hb : b.Legible) :
    a.render = b.render ↔ a = b := by
  refine ⟨fun h => ?_, fun h => congrArg render h⟩
  have hText : (framed a.frame.1 a.frame.2).toList ++ [] =
      (framed b.frame.1 b.frame.2).toList ++ [] := by
    rw [← render_eq, ← render_eq, h]
  obtain ⟨hKeyword, hBody⟩ := framed_append hText
  have hOperands := operands_enclosed ha
  have hOperands' := (Bool.and_eq_true_iff.1 hb).2
  cases a with
  | subClassOf sub super =>
    cases b with
    | subClassOf sub' super' =>
      obtain ⟨hSame, -⟩ := hOperands [sub', super'] _ _ hOperands' hBody
      cases hSame
      rfl
    | _ => cases hKeyword
  | equivalent operands =>
    cases b with
    | equivalent operands' =>
      obtain ⟨rfl, -⟩ := hOperands operands' _ _ hOperands' hBody
      rfl
    | _ => cases hKeyword
  | disjoint operands =>
    cases b with
    | disjoint operands' =>
      obtain ⟨rfl, -⟩ := hOperands operands' _ _ hOperands' hBody
      rfl
    | _ => cases hKeyword
  | disjointUnion defined disjuncts =>
    cases b with
    | disjointUnion defined' disjuncts' =>
      have hParts := (Iri.readsBack (Bool.and_eq_true_iff.1 ha).1).followed hOperands
      obtain ⟨hSame, -⟩ := hParts (defined', disjuncts') _ _ hb hBody
      cases hSame
      rfl
    | _ => cases hKeyword

/-- One literal whose value looks like the end of a literal and a second one, beside two literals:
the quotes inside the value are escaped. -/
theorem render_inj_quotes :
    let values (ls : List Literal) : Axiom :=
      .subClassOf (.named ⟨"A"⟩) (.dataQuantified .existential ⟨"p"⟩ (.oneOf ls))
    let one := values [.tagged "x\"@en \"y" "en"]
    let two := values [.tagged "x" "en", .tagged "y" "en"]
    one.Legible ∧ two.Legible ∧ (one.render = two.render ↔ one = two) ∧
      one.render ≠ two.render := by
  intro values one two
  have hOne : one.Legible := by decide +kernel
  have hTwo : two.Legible := by decide +kernel
  have hNe : one ≠ two := by decide +kernel
  exact ⟨hOne, hTwo, render_inj hOne hTwo, fun h => hNe ((render_inj hOne hTwo).1 h)⟩

end Axiom

end OntoFold
