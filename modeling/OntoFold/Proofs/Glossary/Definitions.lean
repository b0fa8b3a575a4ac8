import Mathlib.Data.Finset.SDiff
import Mathlib.Data.Multiset.DershowitzManna
import Mathlib.Logic.Relation
import OntoFold.Proofs.Folding.Lossless
import OntoFold.Proofs.Glossary.Declaration

/-!
# Published definitions are acyclic

A published definition unfolds to the evaluation of its symbol. So the evaluation of a symbol that
the definition mentions lies inside the evaluation of the defined symbol, and is smaller. Replacing
symbols by their definitions, in whatever order and however many at a time, puts symbols with
smaller evaluations in the place of others and comes to an end. What an expression unfolds to does
not change on the way, so a symbol ends up as its evaluation.

* `Glossary.Unfolds`: some symbols are replaced by their definitions.
* `Glossary.WellDefined`: definitions are acyclic and unfold to the evaluations.
* `Glossary.Closed.defines_iff`: the definition axioms define a symbol once.
* `Glossary.Unfolds.weights_lt`, `Glossary.Closed.unfold_eq_of_unfolds`: what a replacement lowers
  and what it keeps.
* `Glossary.wellDefined_ofList`: declared and discovered symbols.
-/

namespace OntoFold

open ClassExpression (byName)

/-- A multiset gets smaller when some members give way to members below one of them. -/
theorem isDershowitzMannaLT_map {α : Type u} [DecidableEq α] {before after : Finset α}
    {weight : α → Nat} (replaced : Finset α) (hSome : replaced.Nonempty)
    (hReplaced : replaced ⊆ before) (hKept : before \ replaced ⊆ after)
    (hNew : ∀ a ∈ after, a ∉ before \ replaced → ∃ b ∈ replaced, weight a < weight b) :
    (after.val.map weight).IsDershowitzMannaLT (before.val.map weight) := by
  refine ⟨(before \ replaced).val.map weight, (after \ (before \ replaced)).val.map weight,
    replaced.val.map weight, ?_, ?_, ?_, ?_⟩
  · rw [Multiset.empty_eq_zero, Ne, Multiset.map_eq_zero, Finset.val_eq_zero]
    exact hSome.ne_empty
  · rw [← Multiset.map_add, Finset.sdiff_val after,
      add_tsub_cancel_of_le (Finset.val_le_iff.2 hKept)]
  · rw [← Multiset.map_add, Finset.sdiff_val,
      tsub_add_cancel_of_le (Finset.val_le_iff.2 hReplaced)]
  · intro w hw
    obtain ⟨a, ha, rfl⟩ := Multiset.mem_map.1 hw
    obtain ⟨hAfter, hNotKept⟩ := Finset.mem_sdiff.1 (Finset.mem_def.2 ha)
    obtain ⟨b, hb, hLt⟩ := hNew a hAfter hNotKept
    exact ⟨weight b, Multiset.mem_map_of_mem weight hb, hLt⟩

/-- Equivalences of names with expressions are the same only when their parts are. -/
theorem Axiom.define_inj {n m : Iri} {D E : ClassExpression} (h : define n D = define m E)
    (hE : E ≠ .named n) : n = m ∧ D = E := by
  have hOperands : ∀ x, x = .named n ∨ x = D ↔ x = .named m ∨ x = E := by
    intro x
    have hSame : x ∈ ascend [.named n, D] ↔ x ∈ ascend [.named m, E] := by
      rw [Axiom.equivalent.inj h]
    simpa [mem_ascend] using hSame
  obtain hn | hn := (hOperands (.named n)).1 (Or.inl rfl)
  · obtain rfl := ClassExpression.named.inj hn
    obtain hD | hD := (hOperands E).2 (Or.inr rfl)
    · exact absurd hD hE
    · exact ⟨rfl, hD.symm⟩
  · exact absurd hn.symm hE

namespace Glossary

variable {g : Glossary} {entry : Entry} {n t : Iri} {D e v x y : ClassExpression} {threshold : Nat}

/-! ## Unfolding definitions -/

/-- The definition axioms define a symbol as an expression. -/
def Defines (g : Glossary) (n : Iri) (D : ClassExpression) : Prop :=
  g.contains n = true ∧ .define n D ∈ g.definitionAxioms

/-- Some of the symbols in an expression, at least one, are replaced by what they are defined as. -/
def Unfolds (g : Glossary) (x y : ClassExpression) : Prop :=
  ∃ f : Iri → Option ClassExpression, (∀ n D, f n = some D → g.Defines n D) ∧
    (∃ n ∈ x.names, f n ≠ none) ∧ y = x.rewrite (byName f)

/-- Every symbol has a definition, which mentions only symbols with smaller evaluations and becomes
the evaluation of the symbol when they are replaced by theirs. Replacing symbols by their
definitions comes to an end, and when it started with a symbol, it ends with the evaluation of the
symbol. -/
structure WellDefined (g : Glossary) : Prop where
  definitions : ∀ n e, g.evaluation? n = some e → ∃ D, g.definition? n = some D ∧ g.Defines n D ∧
    (∀ t ∈ D.names, ∀ v, g.evaluation? t = some v → v.size < e.size) ∧
    D.rewrite (byName g.evaluation?) = e
  terminates : WellFounded fun y x => g.Unfolds x y
  restores : ∀ n e x, g.evaluation? n = some e → Relation.ReflTransGen g.Unfolds (.named n) x →
    ((∀ y, ¬ g.Unfolds x y) ↔ x = e)

/-! ## Termination -/

/-- The symbols in an expression. -/
def symbolsIn (g : Glossary) (x : ClassExpression) : Finset Iri :=
  x.names.toList.toFinset.filter fun n => g.contains n = true

theorem mem_symbolsIn : n ∈ g.symbolsIn x ↔ n ∈ x.names ∧ g.contains n = true := by
  rw [symbolsIn, Finset.mem_filter, List.mem_toFinset]
  rfl

/-- The size of what a symbol stands for. -/
def weight (g : Glossary) (n : Iri) : Nat := (g.evaluation? n).elim 0 ClassExpression.size

/-- The sizes of what the symbols in an expression stand for. -/
def weights (g : Glossary) (x : ClassExpression) : Multiset Nat := (g.symbolsIn x).val.map g.weight

/-- Definitions mention smaller symbols, so replacing symbols by them lowers the weights. -/
theorem Unfolds.weights_lt (h : g.Unfolds x y)
    (hSmaller : ∀ n D, g.Defines n D → ∀ t ∈ D.names, g.contains t = true →
      g.weight t < g.weight n) : (g.weights y).IsDershowitzMannaLT (g.weights x) := by
  obtain ⟨f, hf, ⟨n, hn, hSome⟩, rfl⟩ := h
  have hContains : ∀ m, f m ≠ none → g.contains m = true := by
    intro m hm
    obtain ⟨D, hD⟩ := Option.ne_none_iff_exists'.1 hm
    exact (hf m D hD).1
  apply isDershowitzMannaLT_map ((g.symbolsIn x).filter fun m => f m ≠ none)
  · exact ⟨n, Finset.mem_filter.2 ⟨mem_symbolsIn.2 ⟨hn, hContains n hSome⟩, hSome⟩⟩
  · exact Finset.filter_subset _ _
  · intro m hm
    rw [Finset.mem_sdiff, Finset.mem_filter, mem_symbolsIn] at hm
    obtain ⟨⟨hMem, hSymbol⟩, hKept⟩ := hm
    have hNone : f m = none := by
      by_contra hNe
      exact hKept ⟨⟨hMem, hSymbol⟩, hNe⟩
    refine mem_symbolsIn.2 ⟨ClassExpression.mem_names_rewrite.2 ⟨m, hMem, ?_⟩, hSymbol⟩
    rw [hNone]
    exact ClassExpression.mem_names_named.2 rfl
  · intro t ht hNew
    obtain ⟨hMem, hSymbol⟩ := mem_symbolsIn.1 ht
    obtain ⟨m, hm, htm⟩ := ClassExpression.mem_names_rewrite.1 hMem
    cases hD : f m with
    | none =>
      rw [hD] at htm
      obtain rfl := ClassExpression.mem_names_named.1 htm
      refine absurd (Finset.mem_sdiff.2 ⟨mem_symbolsIn.2 ⟨hm, hSymbol⟩, fun hReplaced => ?_⟩) hNew
      exact (Finset.mem_filter.1 hReplaced).2 hD
    | some D =>
      rw [hD] at htm
      have hNe : f m ≠ none := by
        rw [hD]
        exact Option.some_ne_none D
      refine ⟨m, Finset.mem_filter.2 ⟨mem_symbolsIn.2 ⟨hm, hContains m hNe⟩, hNe⟩, ?_⟩
      exact hSmaller m D (hf m D hD) t htm hSymbol

theorem wellFounded_unfolds (hSmaller : ∀ n D, g.Defines n D → ∀ t ∈ D.names,
    g.contains t = true → g.weight t < g.weight n) : WellFounded fun y x => g.Unfolds x y :=
  Subrelation.wf (fun h => h.weights_lt hSmaller)
    (InvImage.wf g.weights Multiset.wellFounded_isDershowitzMannaLT)

/-! ## Closed glossaries -/

namespace Closed

variable (hg : g.Closed)

include hg

/-- A published definition is not the name of a symbol. -/
theorem evaluation?_of_name?_foldedEvaluation (hEntry : entry ∈ g.toList)
    (hName : (g.foldedEvaluation threshold entry).name? = some n) : g.evaluation? n = none := by
  rw [hg.foldedEvaluation_eq hEntry, ClassExpression.name?_mapOperands] at hName
  apply hg.mentions _ _ (hg.evaluation?_symbol hEntry)
  rw [ClassExpression.eq_named_of_name? hName]
  exact ClassExpression.mem_names_named.2 rfl

/-- The symbols in a published definition stand for expressions inside the evaluation. -/
theorem size_lt_of_mem_names (hEntry : entry ∈ g.toList)
    (ht : t ∈ (g.foldedEvaluation threshold entry).names) (hv : g.evaluation? t = some v) :
    v.size < entry.evaluation.size := by
  have hUnfold := hg.unfold_foldedEvaluation hEntry threshold
  cases hName : (g.foldedEvaluation threshold entry).name? with
  | some n =>
    rw [ClassExpression.eq_named_of_name? hName, ClassExpression.mem_names_named] at ht
    subst ht
    rw [hg.evaluation?_of_name?_foldedEvaluation hEntry hName] at hv
    cases hv
  | none =>
    obtain ⟨o, ho, hInside⟩ := ClassExpression.exists_operand_rewrite hName ht hv
    rw [hUnfold] at ho
    exact ClassExpression.size_lt_of_mem_positions ho hInside

/-- The definition axioms define a symbol once, as its published definition. -/
theorem defines_iff :
    (g.published threshold).Defines n D ↔
      ∃ entry, g.get? n = some entry ∧ D = g.foldedEvaluation threshold entry := by
  unfold Defines
  rw [contains_published, mem_definitionAxioms_published hg.toOrderly]
  constructor
  · rintro ⟨hContains, entry, hEntry, hDefine⟩
    have hNe : g.foldedEvaluation threshold entry ≠ .named n := by
      intro hEq
      have hNone := hg.evaluation?_of_name?_foldedEvaluation hEntry
        ((congrArg ClassExpression.name? hEq).trans rfl)
      rw [← contains_eq_false, hContains] at hNone
      cases hNone
    obtain ⟨rfl, rfl⟩ := Axiom.define_inj hDefine hNe
    obtain ⟨n, hGet⟩ := mem_toList.1 hEntry
    exact ⟨entry, (hg.symbol n entry hGet).symm ▸ hGet, rfl⟩
  · rintro ⟨entry, hGet, rfl⟩
    refine ⟨SortedMap.contains_iff.2 ⟨entry, hGet⟩, entry, mem_toList.2 ⟨n, hGet⟩, ?_⟩
    rw [hg.symbol n entry hGet]

/-- Replacing symbols by their definitions does not change what an expression unfolds to. -/
theorem unfold_eq_of_unfolds (h : (g.published threshold).Unfolds x y) :
    y.rewrite (byName g.evaluation?) = x.rewrite (byName g.evaluation?) := by
  obtain ⟨f, hf, -, rfl⟩ := h
  apply ClassExpression.rewrite_rewrite_byName
  intro s r hr
  obtain ⟨n, hName, hr⟩ := Option.bind_eq_some_iff.1 hr
  obtain ⟨entry, hGet, rfl⟩ := hg.defines_iff.1 (hf n r hr)
  have hEvaluation := evaluation?_eq_some.2 ⟨entry, hGet, rfl⟩
  rw [ClassExpression.eq_named_of_name? hName, hg.unfold_symbol hEvaluation,
    hg.unfold_evaluation hEvaluation, hg.unfold_foldedEvaluation (mem_toList.2 ⟨n, hGet⟩)]

theorem canonical_of_unfolds (hx : x.Canonical) (h : (g.published threshold).Unfolds x y) :
    y.Canonical := by
  obtain ⟨f, hf, -, rfl⟩ := h
  refine ClassExpression.canonical_rewrite (fun s r hr => ?_) hx
  obtain ⟨n, -, hr⟩ := Option.bind_eq_some_iff.1 hr
  obtain ⟨entry, hGet, rfl⟩ := hg.defines_iff.1 (hf n r hr)
  exact ClassExpression.canonical_rewriteEach (fun _ hStep => canonical_foldSteps hStep)
    (hg.canonical n entry hGet)

/-- As long as there is a symbol, it can be replaced. -/
theorem not_unfolds_iff :
    (∀ y, ¬ (g.published threshold).Unfolds x y) ↔ ∀ n ∈ x.names, g.evaluation? n = none := by
  constructor
  · intro hEnd n hn
    by_contra hSome
    obtain ⟨e, he⟩ := Option.ne_none_iff_exists'.1 hSome
    obtain ⟨entry, hGet, -⟩ := evaluation?_eq_some.1 he
    refine hEnd _ ⟨fun m => if m = n then some (g.foldedEvaluation threshold entry) else none,
      ?_, ⟨n, hn, ?_⟩, rfl⟩
    · intro m D hSome
      obtain ⟨rfl, hEq⟩ := Option.ite_none_right_eq_some.1 hSome
      exact hg.defines_iff.2 ⟨entry, hGet, (Option.some.inj hEq).symm⟩
    · show (if n = n then _ else none) ≠ none
      rw [if_pos rfl]
      exact Option.some_ne_none _
  · rintro hFree y ⟨f, hf, ⟨n, hn, hSome⟩, -⟩
    obtain ⟨D, hD⟩ := Option.ne_none_iff_exists'.1 hSome
    have hContains : g.contains n = true := (hf n D hD).1
    rw [contains_eq_false.2 (hFree n hn)] at hContains
    cases hContains

/-- What symbols are unfolded to step by step. -/
theorem unfold_eq_of_reflTransGen (hx : x.Canonical)
    (h : Relation.ReflTransGen (g.published threshold).Unfolds x y) :
    y.Canonical ∧ y.rewrite (byName g.evaluation?) = x.rewrite (byName g.evaluation?) := by
  induction h with
  | refl => exact ⟨hx, rfl⟩
  | tail _ hStep ih =>
    exact ⟨hg.canonical_of_unfolds ih.1 hStep, (hg.unfold_eq_of_unfolds hStep).trans ih.2⟩

/-- Published definitions are acyclic and unfold to the evaluations. -/
theorem wellDefined_published (threshold : Nat) : (g.published threshold).WellDefined := by
  refine ⟨?_, wellFounded_unfolds ?_, ?_⟩
  · intro n e he
    obtain ⟨entry, hGet, rfl⟩ := evaluation?_eq_some.1 he
    have hEntry : entry ∈ g.toList := mem_toList.2 ⟨n, hGet⟩
    exact ⟨_, definition?_published hg.toOrderly hGet, hg.defines_iff.2 ⟨entry, hGet, rfl⟩,
      fun t ht v hv => hg.size_lt_of_mem_names hEntry ht hv,
      hg.unfold_foldedEvaluation hEntry threshold⟩
  · intro n D hD t ht hContains
    obtain ⟨entry, hGet, rfl⟩ := hg.defines_iff.1 hD
    obtain ⟨other, hOther⟩ := SortedMap.contains_iff.1 hContains
    have hEvaluation : g.evaluation? n = some entry.evaluation :=
      evaluation?_eq_some.2 ⟨entry, hGet, rfl⟩
    have hOtherEvaluation : g.evaluation? t = some other.evaluation :=
      evaluation?_eq_some.2 ⟨other, hOther, rfl⟩
    show (g.evaluation? t).elim 0 _ < (g.evaluation? n).elim 0 _
    rw [hEvaluation, hOtherEvaluation]
    exact hg.size_lt_of_mem_names (mem_toList.2 ⟨n, hGet⟩) ht hOtherEvaluation
  · intro n e x he hReach
    obtain ⟨hCanonical, hUnfold⟩ := hg.unfold_eq_of_reflTransGen rfl hReach
    rw [hg.unfold_symbol he, hg.unfold_evaluation he] at hUnfold
    rw [hg.not_unfolds_iff]
    constructor
    · intro hFree
      rw [← hUnfold, ClassExpression.rewrite_byName_eq_self hCanonical hFree]
    · rintro rfl
      exact hg.mentions n x he

end Closed

/-! ## Declared and discovered symbols -/

/-- Reading symbols off some axioms never fails, and their definitions are acyclic and unfold to the
evaluations, whatever the threshold for definitions is. The same holds of discovering symbols when
no axiom mentions one of them. -/
theorem wellDefined_ofList {axioms : List Axiom} (hAxioms : ∀ ax ∈ axioms, ax.Canonical)
    (options : Options) :
    (∃ d, (Declared.ofList axioms options).result = .ok d ∧ d.glossary.WellDefined) ∧
    ∃ d, (Discovered.ofList axioms options).result = .ok d ∧
      ((∀ ax ∈ axioms, ∀ n ∈ ax.names, d.glossary.contains n = false) →
        d.glossary.WellDefined) := by
  refine ⟨⟨_, Declared.ofList_result hAxioms options, ?_⟩,
    _, Discovered.ofList_result hAxioms options, fun hFresh => ?_⟩
  · exact (Declared.closed_entriesOf hAxioms).wellDefined_published options.declaredDefinition
  · simp only [Discovered.discoveredOf, contains_published] at hFresh
    exact (Discovered.closed_symbolsOf hAxioms hFresh).wellDefined_published
      options.discoveredDefinition

/-- Two declared symbols have the same evaluation, which lies inside that of a third one, and three
expressions get symbols that lie inside one another. -/
theorem wellDefined_ofList_nested :
    let link (p : String) (e : ClassExpression) : ClassExpression :=
      .quantified .existential (.named ⟨p⟩) e
    let inner : ClassExpression := link "r" (.named ⟨"C"⟩)
    let axioms : List Axiom := [
      .equate [.named ⟨"M"⟩, inner],
      .equate [.named ⟨"K"⟩, link "s" inner],
      .equate [.named ⟨"N"⟩, link "s" (.named ⟨"M"⟩)],
      .equate [.named ⟨"P"⟩, .combine .intersection [.named ⟨"N"⟩, link "t" (.named ⟨"K"⟩)]],
      .subClassOf (.named ⟨"A"⟩) (link "t" (link "s" inner)),
      .subClassOf (.named ⟨"B"⟩) (link "t" (link "s" inner))]
    (∀ ax ∈ axioms, ax.Canonical) ∧
    (∃ d, (Declared.ofList axioms {}).result = .ok d ∧ d.glossary.WellDefined ∧
      d.glossary.definition? ⟨"P"⟩ =
        some (.combine .intersection [.named ⟨"K"⟩, link "t" (.named ⟨"K"⟩)])) ∧
    ∃ d, (Discovered.ofList axioms {}).result = .ok d ∧
      (∀ ax ∈ axioms, ∀ n ∈ ax.names, d.glossary.contains n = false) ∧ d.glossary.WellDefined ∧
      d.glossary.definition? ⟨"http://owl.generated.macro#m_3"⟩ =
        some (link "t" (.named ⟨"http://owl.generated.macro#m_2"⟩)) := by
  intro link inner axioms
  have hAxioms : ∀ ax ∈ axioms, ax.Canonical := by decide +kernel
  obtain ⟨⟨d, hRun, hWellDefined⟩, d', hRun', hFresh⟩ := wellDefined_ofList hAxioms {}
  have hDeclared : ∀ d, (Declared.ofList axioms {}).result = .ok d →
      d.glossary.definition? ⟨"P"⟩ =
        some (.combine .intersection [.named ⟨"K"⟩, link "t" (.named ⟨"K"⟩)]) := by
    decide +kernel
  have hDiscovered : ∀ d, (Discovered.ofList axioms {}).result = .ok d →
      (∀ ax ∈ axioms, ∀ n ∈ ax.names, d.glossary.contains n = false) ∧
      d.glossary.definition? ⟨"http://owl.generated.macro#m_3"⟩ =
        some (link "t" (.named ⟨"http://owl.generated.macro#m_2"⟩)) := by
    decide +kernel
  obtain ⟨hAbsent, hDefinition⟩ := hDiscovered d' hRun'
  exact ⟨hAxioms, ⟨d, hRun, hWellDefined, hDeclared d hRun⟩, d', hRun', hAbsent, hFresh hAbsent,
    hDefinition⟩

end Glossary

end OntoFold
