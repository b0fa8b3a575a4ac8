import OntoFold.Proofs.Glossary.Folding
import OntoFold.Proofs.Rewriting.Simultaneous

/-!
# Closed glossaries

A glossary is closed when its evaluations mention no symbols. What folding and unfolding do one
replacement after another then amounts to a rewriting: unfolding puts all evaluations in place at
once, and folding replaces the outermost evaluations.

* `Glossary.Closed`: closed glossaries.
* `Glossary.Closed.rewriteEach_unfoldSteps`, `Glossary.Closed.rewriteEach_foldSteps`: unfolding
  and folding as rewritings.
* `Glossary.Closed.foldedEvaluation_eq`: published definitions fold the operands of evaluations.
* `Glossary.Closed.unfold_foldedEvaluation`: published definitions unfold to evaluations.
-/

namespace OntoFold

open ClassExpression (byName stepsFor Apart)

namespace Glossary

variable {g : Glossary} {entry : Entry} {n symbol : Iri} {e x : ClassExpression} {ax : Axiom}
  {es : SortedSet ClassExpression} {threshold : Nat}
  {step : ClassExpression × ClassExpression}

/-! ## Symbols and evaluations -/

/-- Evaluations mention no symbols. -/
structure Closed (g : Glossary) : Prop extends Orderly g where
  mentions : ∀ n e, g.evaluation? n = some e → ∀ m ∈ e.names, g.evaluation? m = none

theorem Orderly.evaluation?_symbol (hg : g.Orderly) (h : entry ∈ g.toList) :
    g.evaluation? entry.symbol = some entry.evaluation := by
  obtain ⟨n, hGet⟩ := mem_toList.1 h
  rw [hg.symbol n entry hGet]
  exact evaluation?_eq_some.2 ⟨entry, hGet, rfl⟩

theorem Orderly.evaluation?_symbolFor (hg : g.Orderly) (h : g.symbolFor? e = some symbol) :
    g.evaluation? symbol = some e := by
  obtain ⟨entry, hEntry, rfl, rfl⟩ := symbolFor?_eq_some h
  exact hg.evaluation?_symbol hEntry

/-- Every evaluation has a symbol. -/
theorem exists_symbolFor (h : g.evaluation? n = some e) :
    ∃ symbol, g.symbolFor? e = some symbol := by
  obtain ⟨entry, hGet, rfl⟩ := evaluation?_eq_some.1 h
  unfold symbolFor?
  rw [← Option.isSome_iff_exists, Option.isSome_map, List.find?_isSome]
  exact ⟨entry, mem_toList.2 ⟨n, hGet⟩, decide_eq_true rfl⟩

theorem Orderly.canonical_evaluation (hg : g.Orderly) (h : g.evaluation? n = some e) :
    e.Canonical := by
  obtain ⟨entry, hGet, rfl⟩ := evaluation?_eq_some.1 h
  exact hg.canonical n entry hGet

theorem Orderly.canonical_byName (hg : g.Orderly) :
    ∀ t r, byName g.evaluation? t = some r → r.Canonical := by
  intro t r hr
  obtain ⟨n, -, hn⟩ := Option.bind_eq_some_iff.1 hr
  exact hg.canonical_evaluation hn

namespace Closed

variable (hg : g.Closed)

include hg

theorem published (threshold : Nat) : (g.published threshold).Closed :=
  ⟨hg.toOrderly.published threshold, hg.mentions⟩

/-- Nothing inside an evaluation is the name of a symbol. -/
theorem not_mem_positions (hn : g.evaluation? n = some e) {m : Iri} {v : ClassExpression}
    (hm : g.evaluation? m = some v) : .named m ∉ e.positions := by
  intro hMem
  have hNone := hg.mentions n e hn m (ClassExpression.mem_names_iff_position.2 hMem)
  rw [hm] at hNone
  cases hNone

/-- Unfolding leaves evaluations as they are. -/
theorem unfold_evaluation (hn : g.evaluation? n = some e) :
    e.rewrite (byName g.evaluation?) = e :=
  ClassExpression.rewrite_byName_eq_self (hg.canonical_evaluation hn) (hg.mentions n e hn)

theorem unfold_symbol (hn : g.evaluation? n = some e) :
    ClassExpression.rewrite (byName g.evaluation?) (.named n) =
      e.rewrite (byName g.evaluation?) := by
  rw [ClassExpression.rewrite_byName_named, hn, Option.getD_some, hg.unfold_evaluation hn]

/-- Unfolding does not notice that a symbol and its evaluation were exchanged, and one of the two
is not a symbol. -/
theorem unfold_exchanges (h : g.Exchanges step) :
    step.1.rewrite (byName g.evaluation?) = step.2.rewrite (byName g.evaluation?) ∧
      ∀ n m, step = (.named n, .named m) → g.evaluation? n = none ∨ g.evaluation? m = none := by
  obtain ⟨entry, hEntry, hStep⟩ := h
  have hSymbol := hg.evaluation?_symbol hEntry
  have hMentions : ∀ m, entry.evaluation = .named m → g.evaluation? m = none := by
    intro m hm
    apply hg.mentions _ _ hSymbol
    rw [hm]
    exact ClassExpression.mem_names_named.2 rfl
  rcases hStep with rfl | rfl
  · refine ⟨hg.unfold_symbol hSymbol, fun n m hEq => Or.inr (hMentions m ?_)⟩
    exact (Prod.mk.inj hEq).2
  · refine ⟨(hg.unfold_symbol hSymbol).symm, fun n m hEq => Or.inl (hMentions n ?_)⟩
    exact (Prod.mk.inj hEq).1

/-! ## Unfolding -/

omit hg in
theorem unfoldSteps_eq (g : Glossary) (names : SortedSet Iri) :
    g.unfoldSteps names = stepsFor (byName g.evaluation?) (names.toList.map .named) := by
  rw [stepsFor, List.filterMap_map]
  rfl

/-- Symbols do not occur in evaluations. -/
theorem pairwise_unfoldSteps (names : SortedSet Iri) :
    (g.unfoldSteps names).Pairwise Apart := by
  refine List.Pairwise.filterMap _ ?_ names.ascending.nodup
  intro n m hNe step hStep later hLater
  obtain ⟨e, he, rfl⟩ := Option.map_eq_some_iff.1 hStep
  obtain ⟨v, hv, rfl⟩ := Option.map_eq_some_iff.1 hLater
  refine ⟨fun hEq => hNe (ClassExpression.named.inj hEq), fun _ ho => ?_, fun _ ho => ?_, ?_⟩
  · exact absurd ho List.not_mem_nil
  · exact absurd ho List.not_mem_nil
  · exact hg.not_mem_positions he hv

/-- Unfolding an axiom puts all evaluations in place at once. -/
theorem rewriteEach_unfoldSteps (hAx : ax.Canonical) :
    ax.rewriteEach (g.unfoldSteps ax.names) = ax.rewrite (byName g.evaluation?) := by
  have hPairwise := hg.pairwise_unfoldSteps ax.names
  rw [unfoldSteps_eq] at hPairwise ⊢
  refine Axiom.rewriteEach_stepsFor hPairwise hg.canonical_byName hAx fun t ht => ?_
  cases hName : t.name? with
  | none => rw [ClassExpression.byName_eq_none hName, ite_self]
  | some n =>
    obtain rfl := ClassExpression.eq_named_of_name? hName
    have hMem : n ∈ ax.names :=
      SortedSet.mem_ofList.2 (ClassExpression.mem_filterMap_name?.2 ht)
    rw [if_pos (List.mem_map_of_mem hMem)]

/-! ## Folding -/

end Closed

/-- Evaluations larger than a threshold are replaced by their symbols. -/
def folding (g : Glossary) (threshold : Nat) (e : ClassExpression) : Option ClassExpression :=
  if threshold < e.size then (g.symbolFor? e).map .named else none

theorem folding_published (g : Glossary) (k threshold : Nat) :
    (g.published k).folding threshold = g.folding threshold := rfl

theorem folding_eq_some {r : ClassExpression} :
    g.folding threshold e = some r ↔
      threshold < e.size ∧ ∃ symbol, g.symbolFor? e = some symbol ∧ .named symbol = r := by
  unfold folding
  split
  · next h => rw [Option.map_eq_some_iff, and_iff_right h]
  · next h => simp [h]

/-- What is folded becomes a name. -/
theorem exists_name_of_folding {r : ClassExpression} (h : g.folding threshold e = some r) :
    ∃ n, r = .named n := by
  obtain ⟨-, symbol, -, rfl⟩ := folding_eq_some.1 h
  exact ⟨symbol, rfl⟩

/-- The replacements that fold some expressions in a given order. -/
def symbolSteps (g : Glossary) (order : List ClassExpression) :
    List (ClassExpression × ClassExpression) :=
  stepsFor (fun e => (g.symbolFor? e).map .named) order

theorem foldSteps_eq (g : Glossary) (es : SortedSet ClassExpression) (threshold : Nat) :
    g.foldSteps es threshold = g.symbolSteps (foldOrder es threshold) := by
  unfold foldSteps symbolSteps stepsFor
  simp only [Option.map_map]
  rfl

theorem canonical_symbolFor {t r : ClassExpression}
    (h : (g.symbolFor? t).map ClassExpression.named = some r) : r.Canonical := by
  obtain ⟨symbol, -, rfl⟩ := Option.map_eq_some_iff.1 h
  rfl

/-- What is folded are the given expressions above the threshold. -/
theorem folding_eq_of_mem (h : e ∈ es) :
    g.folding threshold e =
      if e ∈ foldOrder es threshold then (g.symbolFor? e).map .named else none := by
  simp only [mem_foldOrder, h, true_and]
  rfl

namespace Closed

variable (hg : g.Closed)

include hg

/-- Larger evaluations do not occur in smaller ones, and symbols occur in none. -/
theorem pairwise_symbolSteps {order : List ClassExpression}
    (hOrder : order.Pairwise fun e e' => e ≠ e' ∧ e'.size ≤ e.size) :
    (g.symbolSteps order).Pairwise Apart := by
  refine List.Pairwise.filterMap _ ?_ hOrder
  rintro e e' ⟨hNe, hSize⟩ step hStep later hLater
  obtain ⟨r, hr, rfl⟩ := Option.map_eq_some_iff.1 hStep
  obtain ⟨symbol, hSymbol, rfl⟩ := Option.map_eq_some_iff.1 hr
  obtain ⟨r', hr', rfl⟩ := Option.map_eq_some_iff.1 hLater
  obtain ⟨symbol', hSymbol', rfl⟩ := Option.map_eq_some_iff.1 hr'
  have he := hg.evaluation?_symbolFor hSymbol
  have he' := hg.evaluation?_symbolFor hSymbol'
  refine ⟨hNe, fun o ho hMem => ?_, fun o ho hMem => ?_, fun hMem => ?_⟩
  · exact absurd (ClassExpression.size_lt_of_mem_positions ho hMem) (Nat.not_lt.2 hSize)
  · exact hg.not_mem_positions he' he (ClassExpression.mem_positions_iff.2 (Or.inr ⟨o, ho, hMem⟩))
  · obtain hEq | ⟨o, ho, -⟩ := ClassExpression.mem_positions_iff.1 hMem
    · refine hg.not_mem_positions he' he (ClassExpression.mem_positions_iff.2 (Or.inl ?_))
      exact hEq.symm
    · exact absurd ho List.not_mem_nil

theorem pairwise_foldSteps (es : SortedSet ClassExpression) (threshold : Nat) :
    (g.foldSteps es threshold).Pairwise Apart := by
  rw [foldSteps_eq]
  exact hg.pairwise_symbolSteps (foldOrder_descending es threshold)

/-- Folding an axiom replaces its outermost evaluations above the threshold, in whatever order the
expressions of one size come. -/
theorem rewriteEach_symbolSteps (hAx : ax.Canonical) {order : List ClassExpression}
    (hPerm : order.Perm (foldOrder ax.nested threshold))
    (hSizes : order.Pairwise fun e e' => e'.size ≤ e.size) :
    ax.rewriteEach (g.symbolSteps order) = ax.rewrite (g.folding threshold) := by
  have hDistinct : order.Nodup :=
    hPerm.nodup_iff.2 ((foldOrder_descending ax.nested threshold).imp And.left)
  have hPairwise := hg.pairwise_symbolSteps (hDistinct.and hSizes)
  apply Axiom.rewriteEach_stepsFor hPairwise (fun _ _ => canonical_symbolFor) hAx
  intro t ht
  simp only [hPerm.mem_iff]
  exact folding_eq_of_mem (SortedSet.mem_ofList.2 ht)

theorem rewriteEach_foldSteps (hAx : ax.Canonical) (threshold : Nat) :
    ax.rewriteEach (g.foldSteps ax.nested threshold) = ax.rewrite (g.folding threshold) := by
  rw [foldSteps_eq]
  exact hg.rewriteEach_symbolSteps hAx (List.Perm.refl _)
    ((foldOrder_descending ax.nested threshold).imp And.right)

/-- A published definition is the evaluation with its operands folded. -/
theorem foldedEvaluation_eq (hEntry : entry ∈ g.toList) (threshold : Nat) :
    g.foldedEvaluation threshold entry =
      entry.evaluation.mapOperands (ClassExpression.rewrite (g.folding threshold)) := by
  have hCanonical := hg.canonical_evaluation (hg.evaluation?_symbol hEntry)
  let τ : ClassExpression → Option ClassExpression := fun t =>
    if t = entry.evaluation then none else g.folding threshold t
  have hFolded : g.foldedEvaluation threshold entry = entry.evaluation.rewrite τ := by
    have hPairwise := hg.pairwise_foldSteps
      (entry.evaluation.nested.erase entry.evaluation) threshold
    unfold foldedEvaluation
    rw [foldSteps_eq] at hPairwise ⊢
    apply ClassExpression.rewriteEach_stepsFor hPairwise (fun _ _ => canonical_symbolFor) hCanonical
    intro t ht
    by_cases hEq : t = entry.evaluation
    · have hErased : t ∉ foldOrder (entry.evaluation.nested.erase entry.evaluation) threshold :=
        fun hMem => (SortedSet.mem_erase.1 (mem_foldOrder.1 hMem).1).2 hEq
      rw [if_neg hErased]
      exact if_pos hEq
    · exact (if_neg hEq).trans
        (folding_eq_of_mem (SortedSet.mem_erase.2 ⟨SortedSet.mem_ofList.2 ht, hEq⟩))
  rw [hFolded, ClassExpression.rewrite_of_eq_none (if_pos rfl)]
  apply ClassExpression.mapOperands_congr
  intro o ho
  apply ClassExpression.rewrite_congr
  intro t ht
  have hSmaller := ClassExpression.size_lt_of_mem_positions ho ht
  refine if_neg ?_
  rintro rfl
  exact Nat.lt_irrefl _ hSmaller

/-- A published definition unfolds to the evaluation. -/
theorem unfold_foldedEvaluation (hEntry : entry ∈ g.toList) (threshold : Nat) :
    (g.foldedEvaluation threshold entry).rewrite (byName g.evaluation?) = entry.evaluation := by
  unfold foldedEvaluation
  rw [ClassExpression.rewrite_rewriteEach fun step hStep =>
    (hg.unfold_exchanges (exchanges_foldSteps hStep)).1]
  exact hg.unfold_evaluation (hg.evaluation?_symbol hEntry)

end Closed

end Glossary

end OntoFold
