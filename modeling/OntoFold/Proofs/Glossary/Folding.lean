import Mathlib.Data.List.Flatten
import OntoFold.Glossary.Fold
import OntoFold.Proofs.Order.Entries
import OntoFold.Proofs.Order.Grouping
import OntoFold.Proofs.Rewriting.Sequences

/-!
# Folding with a glossary

Folding and unfolding are sequences of substitutions that exchange evaluations and symbols. The
published definition of a symbol is its evaluation with smaller evaluations folded.

* `Glossary.exchanges_foldSteps`, `Glossary.exchanges_unfoldSteps`: what is exchanged.
* `Glossary.foldDefinitions_result`: folding the definitions never fails.
* `Glossary.definition?_published`, `Glossary.mem_definitionAxioms_published`: the published
  definition of a symbol.
-/

namespace OntoFold

namespace Glossary

variable {g : Glossary} {entry : Entry} {n symbol : Iri} {e : ClassExpression}
  {es : SortedSet ClassExpression} {threshold : Nat}
  {step : ClassExpression × ClassExpression}

/-- Every entry stands under its own symbol and has a canonical evaluation. -/
structure Orderly (g : Glossary) : Prop where
  symbol : ∀ n entry, g.get? n = some entry → entry.symbol = n
  canonical : ∀ n entry, g.get? n = some entry → entry.evaluation.Canonical

theorem mem_toList : entry ∈ g.toList ↔ ∃ n, g.get? n = some entry := SortedMap.mem_values

theorem evaluation?_eq_some :
    g.evaluation? n = some e ↔ ∃ entry, g.get? n = some entry ∧ entry.evaluation = e :=
  Option.map_eq_some_iff

theorem contains_eq_false : g.contains n = false ↔ g.evaluation? n = none := by
  rw [contains, SortedMap.contains_eq_false, evaluation?, Option.map_eq_none_iff]
  exact Iff.rfl

theorem symbolFor?_eq_some (h : g.symbolFor? e = some symbol) :
    ∃ entry ∈ g.toList, entry.evaluation = e ∧ entry.symbol = symbol := by
  obtain ⟨entry, hFind, hSymbol⟩ := Option.map_eq_some_iff.1 h
  refine ⟨entry, List.mem_of_find?_eq_some hFind, ?_, hSymbol⟩
  simpa using List.find?_some hFind

/-- Adding entries with new symbols never fails. -/
theorem foldlM_insert {α : Type u} {step : Glossary → α → Except Fault Glossary}
    {entryOf : α → Entry} {xs : List α}
    (hStep : ∀ x ∈ xs, ∀ g, step g x = g.insert (entryOf x))
    (hSymbols : (xs.map fun x => (entryOf x).symbol).Nodup)
    (hNew : ∀ x ∈ xs, g.get? (entryOf x).symbol = none) :
    xs.foldlM step g = .ok { g with
      entries := (xs.map fun x => ((entryOf x).symbol, entryOf x)).foldl
        (fun m x => m.insert x.1 x.2) g.entries } := by
  induction xs generalizing g with
  | nil => rfl
  | cons x xs ih =>
    obtain ⟨hFirst, hRest⟩ := List.nodup_cons.1 hSymbols
    have hInsert : g.insert (entryOf x) =
        .ok { g with entries := g.entries.insert (entryOf x).symbol (entryOf x) } := by
      have hAbsent : g.entries.contains (entryOf x).symbol = false :=
        SortedMap.contains_eq_false.2 (hNew x List.mem_cons_self)
      rw [Glossary.insert, if_neg (by rw [hAbsent]; exact Bool.false_ne_true)]
    rw [List.foldlM_cons, hStep x List.mem_cons_self, hInsert]
    apply ih (fun y hy => hStep y (List.mem_cons_of_mem _ hy)) hRest
    intro y hy
    have hNe : (entryOf y).symbol ≠ (entryOf x).symbol := fun hEq =>
      hFirst (List.mem_map.2 ⟨y, hy, hEq⟩)
    exact (SortedMap.get?_insert_ne hNe).trans (hNew y (List.mem_cons_of_mem _ hy))

/-- The glossary with some entries. -/
def ofEntries (entries : List Entry) : Glossary where
  entries := (entries.map fun entry => (entry.symbol, entry)).foldl (fun m x => m.insert x.1 x.2) ∅

theorem foldlM_insert_empty {entries : List Entry} (h : (entries.map Entry.symbol).Nodup) :
    entries.foldlM Glossary.insert ∅ = .ok (ofEntries entries) := by
  have hStep : ∀ entry ∈ entries, ∀ g, Glossary.insert g entry = g.insert (id entry) :=
    fun _ _ _ => rfl
  exact foldlM_insert hStep h fun _ _ => rfl

theorem get?_ofEntries {entries : List Entry} (h : (entries.map Entry.symbol).Nodup) :
    (ofEntries entries).get? n = some entry ↔ entry ∈ entries ∧ entry.symbol = n := by
  have hKeys : ((entries.map fun entry => (entry.symbol, entry)).map Prod.fst).Nodup := by
    rw [List.map_map]
    exact h
  refine (SortedMap.get?_foldl_insert hKeys).trans ?_
  simp [and_comm]

/-- Glossaries are in order when their entries have distinct symbols and canonical evaluations. -/
theorem orderly_ofEntries {entries : List Entry} (hSymbols : (entries.map Entry.symbol).Nodup)
    (hCanonical : ∀ entry ∈ entries, entry.evaluation.Canonical) : (ofEntries entries).Orderly :=
  ⟨fun _ _ hGet => ((get?_ofEntries hSymbols).1 hGet).2,
    fun _ entry hGet => hCanonical entry ((get?_ofEntries hSymbols).1 hGet).1⟩

/-! ## The steps of folding and unfolding -/

/-- A symbol is put in the place of its evaluation or the other way round. -/
def Exchanges (g : Glossary) (step : ClassExpression × ClassExpression) : Prop :=
  ∃ entry ∈ g.toList, step = (.named entry.symbol, entry.evaluation) ∨
    step = (entry.evaluation, .named entry.symbol)

theorem Exchanges.canonical (hg : g.Orderly) (h : g.Exchanges step) : step.2.Canonical := by
  obtain ⟨entry, hEntry, rfl | rfl⟩ := h
  · obtain ⟨n, hGet⟩ := mem_toList.1 hEntry
    exact hg.canonical n entry hGet
  · rfl

/-- Buckets come with descending sizes, so those above a threshold are at the front. -/
theorem foldOrder_eq (es : SortedSet ClassExpression) (threshold : Nat) :
    foldOrder es threshold =
      ((sizeBuckets es.toList).toList.reverse.filter fun x => threshold < x.1).flatMap
        fun x => x.2.toList := by
  unfold foldOrder
  refine congrArg (List.flatMap _) (takeWhile_eq_filter ?_)
  refine List.pairwise_reverse.2 (List.Pairwise.imp ?_ (List.pairwise_map.1
    (sizeBuckets es.toList).ascending))
  rintro ⟨size, bucket⟩ ⟨size', bucket'⟩ hLt
  have hLt : size < size' := Nat.compare_eq_lt.1 hLt
  simp only [decide_eq_true_eq]
  omega

theorem mem_foldOrder : e ∈ foldOrder es threshold ↔ e ∈ es ∧ threshold < e.size := by
  rw [foldOrder_eq, List.mem_flatMap]
  simp only [List.mem_filter, List.mem_reverse, decide_eq_true_eq]
  constructor
  · rintro ⟨⟨size, bucket⟩, ⟨hBucket, hSize⟩, he⟩
    obtain ⟨hMem, rfl⟩ := (SortedMap.mem_entry_groupBy hBucket).1 he
    exact ⟨hMem, hSize⟩
  · rintro ⟨hMem, hSize⟩
    have hGroup : (sizeBuckets es.toList).HasMember e.size e :=
      SortedMap.mem_groupBy.2 ⟨hMem, rfl⟩
    obtain ⟨bucket, hGet, he⟩ := hGroup
    exact ⟨⟨e.size, bucket⟩, ⟨SortedMap.get?_eq_some_iff.1 hGet, hSize⟩, he⟩

/-- Nothing is folded after something smaller. -/
theorem foldOrder_descending (es : SortedSet ClassExpression) (threshold : Nat) :
    (foldOrder es threshold).Pairwise fun e e' => e ≠ e' ∧ e'.size ≤ e.size := by
  have hAll := SortedMap.pairwise_groupBy ClassExpression.size es.toList SortedSet.toList
    fun bucket => ⟨bucket.ascending.nodup, fun _ he => he⟩
  rw [foldOrder_eq]
  refine List.Pairwise.imp ?_ (hAll.sublist (List.filter_sublist.flatMap _))
  rintro e e' ⟨hNe, hSize⟩
  refine ⟨hNe, ?_⟩
  rw [Ne, Nat.compare_eq_gt] at hSize
  omega

/-- The replacements that fold some expressions. -/
def foldSteps (g : Glossary) (es : SortedSet ClassExpression) (threshold : Nat) :
    List (ClassExpression × ClassExpression) :=
  (foldOrder es threshold).filterMap fun e =>
    (g.symbolFor? e).map fun symbol => (e, .named symbol)

/-- Folding replaces evaluations above the threshold by their symbols. -/
theorem mem_foldSteps (h : step ∈ g.foldSteps es threshold) :
    ∃ entry ∈ g.toList, (entry.evaluation ∈ es ∧ threshold < entry.evaluation.size) ∧
      step = (entry.evaluation, .named entry.symbol) := by
  obtain ⟨e, he, hStep⟩ := List.mem_filterMap.1 h
  obtain ⟨symbol, hSymbol, rfl⟩ := Option.map_eq_some_iff.1 hStep
  obtain ⟨entry, hEntry, rfl, rfl⟩ := symbolFor?_eq_some hSymbol
  exact ⟨entry, hEntry, mem_foldOrder.1 he, rfl⟩

theorem exchanges_foldSteps (h : step ∈ g.foldSteps es threshold) : g.Exchanges step := by
  obtain ⟨entry, hEntry, -, rfl⟩ := mem_foldSteps h
  exact ⟨entry, hEntry, Or.inr rfl⟩

theorem canonical_foldSteps (h : step ∈ g.foldSteps es threshold) : step.2.Canonical := by
  obtain ⟨entry, -, -, rfl⟩ := mem_foldSteps h
  rfl

/-- The replacements that unfold some names. -/
def unfoldSteps (g : Glossary) (names : SortedSet Iri) :
    List (ClassExpression × ClassExpression) :=
  names.toList.filterMap fun name =>
    (g.evaluation? name).map fun evaluation => (.named name, evaluation)

/-- Unfolding replaces symbols by their evaluations. -/
theorem exchanges_unfoldSteps (hg : g.Orderly) {names : SortedSet Iri}
    (h : step ∈ g.unfoldSteps names) : g.Exchanges step := by
  obtain ⟨n, -, hStep⟩ := List.mem_filterMap.1 h
  obtain ⟨e, hEvaluation, rfl⟩ := Option.map_eq_some_iff.1 hStep
  obtain ⟨entry, hGet, rfl⟩ := evaluation?_eq_some.1 hEvaluation
  refine ⟨entry, mem_toList.2 ⟨n, hGet⟩, Or.inl ?_⟩
  rw [hg.symbol n entry hGet]

/-! ## Published definitions -/

/-- The evaluation of an entry with what is nested inside it folded. -/
def foldedEvaluation (g : Glossary) (threshold : Nat) (entry : Entry) : ClassExpression :=
  entry.evaluation.rewriteEach
    (g.foldSteps (entry.evaluation.nested.erase entry.evaluation) threshold)

theorem foldEntry_result (h : entry.evaluation.Canonical) :
    (g.foldEntry threshold entry).result =
      .ok (entry.symbol, g.foldedEvaluation threshold entry) := by
  have hSteps : ∀ step ∈ g.foldSteps (entry.evaluation.nested.erase entry.evaluation) threshold,
      step.2.Canonical := fun step hStep => canonical_foldSteps hStep
  obtain ⟨a, hStart, ha⟩ := Arena.ofPhrase_encodes (.ofClass entry.evaluation) none
  obtain ⟨total, b, hRun, hb⟩ := ha.substituteClasses_ofClass h hSteps
  have hFold : (g.fold a (entry.evaluation.nested.erase entry.evaluation) threshold).result =
      .ok (total, b) := hRun
  have hDecode : b.decodeClass = .ok (g.foldedEvaluation threshold entry) :=
    hb.decodeClass (ClassExpression.canonical_rewriteEach hSteps h)
  unfold foldEntry
  simp only [Run.result_bind, Run.result_liftM, hStart, hFold, hDecode, Run.ok_bind,
    Run.result_report, Run.result_pure]

/-- The glossary with its definitions published. -/
def published (g : Glossary) (threshold : Nat) : Glossary :=
  { g with
    folded := (g.toList.map fun entry => (entry.symbol, g.foldedEvaluation threshold entry)).foldl
      (fun m x => m.insert x.1 x.2) ∅ }

@[simp] theorem get?_published : (g.published threshold).get? n = g.get? n := rfl

@[simp] theorem contains_published : (g.published threshold).contains n = g.contains n := rfl

theorem Orderly.published (h : g.Orderly) (threshold : Nat) : (g.published threshold).Orderly :=
  ⟨h.symbol, h.canonical⟩

/-- Folding the definitions never fails. -/
theorem foldDefinitions_result (h : g.Orderly) :
    (g.foldDefinitions threshold).result = .ok (g.published threshold) := by
  unfold foldDefinitions
  rw [Run.result_bind, Run.result_mapM]
  rw [mapM_eq_ok (g := fun entry => (entry.symbol, g.foldedEvaluation threshold entry))]
  · rfl
  · intro entry hEntry
    obtain ⟨n, hGet⟩ := mem_toList.1 hEntry
    exact foldEntry_result (h.canonical n entry hGet)

/-- The published definition of a symbol is its folded evaluation. -/
theorem definition?_published (h : g.Orderly) (hGet : g.get? n = some entry) :
    (g.published threshold).definition? n = some (g.foldedEvaluation threshold entry) := by
  have hKeys : ((g.toList.map fun entry =>
      (entry.symbol, g.foldedEvaluation threshold entry)).map Prod.fst).Nodup := by
    have hSymbols : g.toList.map Entry.symbol = g.entries.toList.map Prod.fst := by
      unfold toList SortedMap.values
      rw [List.map_map]
      apply List.map_congr_left
      intro ⟨m, entry⟩ hMem
      exact h.symbol m entry (SortedMap.get?_eq_some_iff.2 hMem)
    rw [List.map_map]
    show (g.toList.map Entry.symbol).Nodup
    rw [hSymbols]
    exact SortedMap.keys_nodup
  have hFolded : (g.published threshold).folded.get? n =
      some (g.foldedEvaluation threshold entry) := by
    refine (SortedMap.get?_foldl_insert hKeys).2 (Or.inl (List.mem_map.2 ⟨entry, ?_, ?_⟩))
    · exact mem_toList.2 ⟨n, hGet⟩
    · rw [h.symbol n entry hGet]
  rw [definition?, hFolded, Option.some_or]

/-- The definition axioms hold the published definition of every symbol. -/
theorem mem_definitionAxioms_published (h : g.Orderly) {ax : Axiom} :
    ax ∈ (g.published threshold).definitionAxioms ↔
      ∃ entry ∈ g.toList, ax = .define entry.symbol (g.foldedEvaluation threshold entry) := by
  have hDefinition : ∀ entry ∈ g.toList, (g.published threshold).definition? entry.symbol =
      some (g.foldedEvaluation threshold entry) := by
    intro entry hEntry
    obtain ⟨n, hGet⟩ := mem_toList.1 hEntry
    rw [h.symbol n entry hGet]
    exact definition?_published h hGet
  rw [definitionAxioms, List.mem_filterMap]
  constructor
  · rintro ⟨entry, hEntry, hDefine⟩
    obtain ⟨e, he, rfl⟩ := Option.map_eq_some_iff.1 hDefine
    obtain rfl := Option.some.inj (he.symm.trans (hDefinition entry hEntry))
    exact ⟨entry, hEntry, rfl⟩
  · rintro ⟨entry, hEntry, rfl⟩
    refine ⟨entry, hEntry, ?_⟩
    rw [hDefinition entry hEntry, Option.map_some]

/-- Published definitions are canonical. -/
theorem canonical_published (h : g.Orderly) (hn : (g.published threshold).contains n = true)
    (he : (g.published threshold).definition? n = some e) : e.Canonical := by
  rw [contains_published] at hn
  obtain ⟨entry, hGet⟩ := SortedMap.contains_iff.1 hn
  obtain rfl := Option.some.inj (he.symm.trans (definition?_published h hGet))
  exact ClassExpression.canonical_rewriteEach (fun _ hStep => canonical_foldSteps hStep)
    (h.canonical n entry hGet)

end Glossary

end OntoFold
