import OntoFold.Proofs.Folding.Stages
import OntoFold.Proofs.Rewriting.Leftovers

/-!
# Folding from the outside in

The replacements that fold an axiom are chosen before the first of them is made, and larger ones
destroy the places of smaller ones. As evaluations mention no symbols, what comes out is still the
axiom with its outermost evaluations replaced, and nothing is left in it to be folded: an expression
inside which something was replaced mentions a symbol, and no evaluation does.

* `ClassExpression.rewrite_eq_self_of_absent`: when a rewriting has changed nothing.
* `Glossary.Closed.substituteClasses_symbolSteps`: folding in some order.
* `Glossary.Closed.foldSteps_rewrite_eq_nil`: nothing is left to be folded.
* `Glossary.closed_ofEntries`: glossaries that are closed.
* `Glossary.fold_outermost`: folding an axiom.
-/

namespace OntoFold

/-- A rewriting changes nothing when none of its replacements is nested inside the result. -/
theorem ClassExpression.rewrite_eq_self_of_absent {e : ClassExpression}
    {σ : ClassExpression → Option ClassExpression} (he : e.Canonical)
    (h : ∀ t r, σ t = some r → r ∉ (e.rewrite σ).positions) : e.rewrite σ = e := by
  induction e using operands_induction with
  | step e ih =>
    cases hr : σ e with
    | some r =>
      have hAbsent := h e r hr
      rw [rewrite_of_eq_some hr] at hAbsent
      exact absurd (mem_positions_iff.2 (Or.inl rfl)) hAbsent
    | none =>
      rw [rewrite_of_eq_none hr] at h ⊢
      apply mapOperands_eq_self he
      intro o ho
      apply ih o ho (canonical_of_operand he ho)
      intro t r ht hMem
      exact h t r ht (mem_positions_mapOperands ho hMem)

namespace Glossary

variable {g : Glossary} {entries : List Entry} {threshold : Nat} {s x : ClassExpression}
  {ax : Axiom}

/-! ## Outcomes -/

namespace Closed

variable (hg : g.Closed)

include hg

/-- What is folded has no symbol inside. -/
theorem symbol_not_mem_of_folding {t r : ClassExpression} (hs : g.folding threshold s ≠ none)
    (hr : g.folding threshold t = some r) : r ∉ s.positions := by
  obtain ⟨r', hr'⟩ := Option.ne_none_iff_exists'.1 hs
  obtain ⟨-, symbol, hFor, rfl⟩ := folding_eq_some.1 hr
  obtain ⟨-, symbol', hFor', -⟩ := folding_eq_some.1 hr'
  exact hg.not_mem_positions (hg.evaluation?_symbolFor hFor') (hg.evaluation?_symbolFor hFor)

/-- Nothing inside a folded expression can be folded. -/
theorem folding_eq_none_of_mem (hx : x.Canonical)
    (hs : s ∈ (x.rewrite (g.folding threshold)).positions) : g.folding threshold s = none := by
  by_contra hSome
  induction x using ClassExpression.operands_induction with
  | step x ih =>
    cases hr : g.folding threshold x with
    | some r =>
      obtain ⟨n, rfl⟩ := exists_name_of_folding hr
      rw [ClassExpression.rewrite_of_eq_some hr] at hs
      obtain rfl := List.mem_singleton.1 hs
      exact hg.symbol_not_mem_of_folding hSome hr (List.mem_singleton_self _)
    | none =>
      rcases ClassExpression.mem_positions_iff.1 hs with rfl | ⟨y, hy, hs⟩
      · -- What can be folded mentions no symbol, so it is what it was before, and was kept.
        have hSame := ClassExpression.rewrite_eq_self_of_absent hx fun t r ht =>
          hg.symbol_not_mem_of_folding hSome ht
        rw [hSame] at hSome
        exact hSome hr
      · rw [ClassExpression.rewrite_of_eq_none hr] at hy
        obtain ⟨o, ho, rfl⟩ := ClassExpression.mem_operands_mapOperands.1 hy
        exact ih o ho (ClassExpression.canonical_of_operand hx ho) hs

/-- Folding an axiom in any order that respects the sizes never fails and replaces its outermost
evaluations. -/
theorem substituteClasses_symbolSteps {a : Arena} (ha : a.Shows ax) {order : List ClassExpression}
    (hPerm : order.Perm (foldOrder ax.nested threshold))
    (hSizes : order.Pairwise fun e e' => e'.size ≤ e.size) :
    ∃ count b, (a.substituteClasses (g.symbolSteps order) 0).result = .ok (count, b) ∧
      b.Shows (ax.rewrite (g.folding threshold)) := by
  obtain ⟨count, b, hRun, hb, -⟩ := ha.substituteClasses (g.symbolSteps order)
    (ClassExpression.canonical_stepsFor fun _ _ => canonical_symbolFor)
  rw [hg.rewriteEach_symbolSteps ha.canonical hPerm hSizes] at hb
  exact ⟨count, b, hRun, hb⟩

/-- Nothing is left to be folded in a folded axiom. -/
theorem foldSteps_rewrite_eq_nil (hAx : ax.Canonical) (threshold : Nat) :
    g.foldSteps (ax.rewrite (g.folding threshold)).nested threshold = [] := by
  rw [foldSteps, List.filterMap_eq_nil_iff]
  intro s hs
  have hMem : s ∈ (ax.rewrite (g.folding threshold)).positions :=
    SortedSet.mem_ofList.1 (mem_foldOrder.1 hs).1
  obtain ⟨x, hx, hInside⟩ :=
    Axiom.exists_root_of_mem_positions_rewrite (fun _ _ => exists_name_of_folding) hMem
  have hCanonical : x.Canonical := by
    rcases Axiom.mem_roots.1 hx with ⟨d, -, rfl⟩ | ho
    · rfl
    · exact Axiom.canonical_of_operand hAx ho
  have hNone := hg.folding_eq_none_of_mem hCanonical hInside
  rw [folding, if_pos (mem_foldOrder.1 hs).2, Option.map_eq_none_iff] at hNone
  rw [hNone, Option.map_none]

end Closed

/-! ## Folding axioms -/

/-- Glossaries are closed when their entries have distinct symbols that no evaluation mentions. -/
theorem closed_ofEntries (hSymbols : (entries.map Entry.symbol).Nodup)
    (hCanonical : ∀ entry ∈ entries, entry.evaluation.Canonical)
    (hFree : ∀ entry ∈ entries, ∀ other ∈ entries, other.symbol ∉ entry.evaluation.names) :
    (ofEntries entries).Closed := by
  refine ⟨orderly_ofEntries hSymbols hCanonical, ?_⟩
  intro n e hn m hm
  obtain ⟨entry, hGet, rfl⟩ := evaluation?_eq_some.1 hn
  apply Option.eq_none_iff_forall_ne_some.2
  intro v hv
  obtain ⟨other, hOther, -⟩ := evaluation?_eq_some.1 hv
  obtain ⟨hMem, rfl⟩ := (get?_ofEntries hSymbols).1 hOther
  exact hFree entry ((get?_ofEntries hSymbols).1 hGet).1 other hMem hm

/-- Entries with distinct symbols make a glossary. When no evaluation mentions a symbol, folding an
axiom, whether it mentions symbols or not, never fails and replaces the outermost evaluations above
the threshold, operands being collected into sets again. The outcome is the same in whatever order
the expressions of one size are folded, and folding it once more replaces nothing. -/
theorem fold_outermost (hSymbols : (entries.map Entry.symbol).Nodup)
    (hCanonical : ∀ entry ∈ entries, entry.evaluation.Canonical)
    (hFree : ∀ entry ∈ entries, ∀ other ∈ entries, other.symbol ∉ entry.evaluation.names)
    (hAx : ax.Canonical) (threshold : Nat) :
    ∃ g initial count a, entries.foldlM Glossary.insert ∅ = .ok g ∧
      Arena.ofPhrase (.statement ax) none = .ok initial ∧
      (g.fold initial ax.nested threshold).result = .ok (count, a) ∧
      a.decodeAxiom = .ok (ax.rewrite (g.folding threshold)) ∧
      (∀ order : List ClassExpression, order.Perm (foldOrder ax.nested threshold) →
        order.Pairwise (fun e e' => e'.size ≤ e.size) →
        ∃ count' a', (initial.substituteClasses (g.symbolSteps order) 0).result = .ok (count', a') ∧
          a'.decodeAxiom = .ok (ax.rewrite (g.folding threshold))) ∧
      (g.fold a (ax.rewrite (g.folding threshold)).nested threshold).result = .ok (0, a) := by
  have hg := closed_ofEntries hSymbols hCanonical hFree
  obtain ⟨initial, hStart, hInitial⟩ := Arena.ofPhrase_shows hAx
  have hRun : ∀ order : List ClassExpression, order.Perm (foldOrder ax.nested threshold) →
      order.Pairwise (fun e e' => e'.size ≤ e.size) →
      ∃ count a, (initial.substituteClasses ((ofEntries entries).symbolSteps order) 0).result =
          .ok (count, a) ∧
        a.decodeAxiom = .ok (ax.rewrite ((ofEntries entries).folding threshold)) := by
    intro order hPerm hSizes
    obtain ⟨count, a, hRun, ha⟩ := hg.substituteClasses_symbolSteps hInitial hPerm hSizes
    exact ⟨count, a, hRun, ha.decodeAxiom⟩
  obtain ⟨count, a, hFold, hDecode⟩ := hRun _ (List.Perm.refl _)
    ((foldOrder_descending ax.nested threshold).imp And.right)
  refine ⟨_, initial, count, a, foldlM_insert_empty hSymbols, hStart, ?_, hDecode, hRun, ?_⟩
  · rw [← foldSteps_eq] at hFold
    exact hFold
  · show (a.substituteClasses (foldSteps _ _ threshold) 0).result = _
    rw [hg.foldSteps_rewrite_eq_nil hAx]
    rfl

/-- A disjoint union with a symbol among its disjuncts, what it stands for, and two expressions of
one size around it; another symbol has the same evaluation as one of them. -/
theorem fold_outermost_nested :
    let link (p : String) (e : ClassExpression) : ClassExpression :=
      .quantified .existential (.named ⟨p⟩) e
    let inner : ClassExpression := link "r" (.named ⟨"C"⟩)
    let entries : List Entry := [⟨⟨"X"⟩, inner, inner⟩, ⟨⟨"Y"⟩, link "s" inner, link "s" inner⟩,
      ⟨⟨"Z"⟩, link "t" inner, link "t" inner⟩, ⟨⟨"W"⟩, link "s" inner, link "s" inner⟩]
    let ax : Axiom :=
      .partition ⟨"X"⟩ [.named ⟨"X"⟩, inner, link "t" inner, link "u" (link "s" inner)]
    let folded : Axiom := .partition ⟨"X"⟩ [.named ⟨"X"⟩, .named ⟨"Z"⟩, link "u" (.named ⟨"W"⟩)]
    let order := [link "u" (link "s" inner), link "t" inner, link "s" inner, inner]
    ((entries.map Entry.symbol).Nodup ∧ (∀ entry ∈ entries, entry.evaluation.Canonical) ∧
      (∀ entry ∈ entries, ∀ other ∈ entries, other.symbol ∉ entry.evaluation.names) ∧
      ax.Canonical) ∧
    foldOrder ax.nested 1 ≠ order ∧
    ∃ g initial count a, entries.foldlM Glossary.insert ∅ = .ok g ∧
      Arena.ofPhrase (.statement ax) none = .ok initial ∧
      (g.fold initial ax.nested 1).result = .ok (count, a) ∧ a.decodeAxiom = .ok folded ∧
      (∃ count' a', (initial.substituteClasses (g.symbolSteps order) 0).result = .ok (count', a') ∧
        a'.decodeAxiom = .ok folded) ∧
      (g.fold a folded.nested 1).result = .ok (0, a) := by
  intro link inner entries ax folded order
  have hSymbols : (entries.map Entry.symbol).Nodup := by decide +kernel
  have hCanonical : ∀ entry ∈ entries, entry.evaluation.Canonical := by decide +kernel
  have hFree : ∀ entry ∈ entries, ∀ other ∈ entries,
      other.symbol ∉ entry.evaluation.names := by decide +kernel
  have hAx : ax.Canonical := by decide +kernel
  obtain ⟨g, initial, count, a, hGlossary, hStart, hFold, hDecode, hOrder, hAgain⟩ :=
    fold_outermost hSymbols hCanonical hFree hAx 1
  have hFolded : ∀ g, entries.foldlM Glossary.insert ∅ = .ok g →
      ax.rewrite (g.folding 1) = folded := by
    decide +kernel
  rw [hFolded g hGlossary] at hDecode hOrder hAgain
  exact ⟨⟨hSymbols, hCanonical, hFree, hAx⟩, by decide +kernel, g, initial, count, a, hGlossary,
    hStart, hFold, hDecode, hOrder order (by decide +kernel) (by decide +kernel), hAgain⟩

end Glossary

end OntoFold
