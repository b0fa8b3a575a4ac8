import Std.Data.String.ToNat
import OntoFold.Folding.Run
import OntoFold.Proofs.Census.Occurrences
import OntoFold.Proofs.Folding.Stages

/-!
# Discovered glossaries

The repeated expressions of a corpus get the symbols of a supply one after another: a stem followed
by 1, 2, and so on. The supply does not look at the corpus, so a class of the corpus can bear the
name of a symbol; symbols are fresh only when no class does.

* `Discovered.get?_entriesFrom`: which expression has which symbol.
* `Discovered.ofList_result`: discovering symbols never fails.
* `Discovered.ofList_symbols`: the symbols, and the axioms they leave alone.
-/

namespace OntoFold

namespace Discovered

variable {stem : String} {es : List ClassExpression} {e : ClassExpression} {n : Iri}
  {entry : Entry} {axioms : List Axiom} {options : Options}

/-! ## Numbered symbols -/

/-- The symbol that a supply gives after some others. -/
def symbolAfter (stem : String) (issued : Nat) : Iri := ⟨stem ++ toString (issued + 1)⟩

theorem symbolAfter_inj {j k : Nat} (h : symbolAfter stem j = symbolAfter stem k) : j = k := by
  have hText : stem ++ toString (j + 1) = stem ++ toString (k + 1) := congrArg Iri.text h
  exact Nat.succ.inj (Nat.repr_inj.1 ((String.append_right_inj stem).1 hText))

/-- The entry of an expression with the number of symbols given before. -/
def entryFrom (stem : String) (x : ClassExpression × Nat) : Entry :=
  ⟨symbolAfter stem x.2, x.1, x.1⟩

theorem nodup_symbols (stem : String) (es : List ClassExpression) :
    (es.zipIdx.map fun x => (entryFrom stem x).symbol).Nodup := by
  have hNumbers : (es.zipIdx.map Prod.snd).Nodup := by
    rw [List.zipIdx_map_snd]
    exact List.nodup_range'
  refine List.pairwise_map.2 (List.Pairwise.imp ?_ (List.pairwise_map.1 hNumbers))
  exact fun hNe hEq => hNe (symbolAfter_inj hEq)

/-- Giving symbols to expressions adds their entries. -/
theorem foldlM_assign {step : Glossary × SymbolSupply → ClassExpression →
      Except Fault (Glossary × SymbolSupply)}
    (hStep : ∀ g k e, step (g, ⟨stem, k⟩) e =
      g.insert (entryFrom stem (e, k)) >>= fun g => .ok (g, ⟨stem, k + 1⟩))
    (g : Glossary) (k : Nat) :
    es.foldlM step (g, ⟨stem, k⟩) =
      ((es.zipIdx k).foldlM (fun g x => g.insert (entryFrom stem x)) g) >>= fun g =>
        .ok (g, ⟨stem, k + es.length⟩) := by
  induction es generalizing g k with
  | nil => rfl
  | cons e es ih =>
    rw [List.foldlM_cons, List.zipIdx_cons, List.foldlM_cons, hStep]
    cases g.insert (entryFrom stem (e, k)) with
    | error fault => rfl
    | ok g =>
      simp only [Run.ok_bind]
      rw [ih, List.length_cons, Nat.add_assoc, Nat.add_comm 1]

/-- The entries of some expressions, in the order of their symbols' numbers. -/
def entriesFrom (stem : String) (es : List ClassExpression) : Glossary where
  entries := (es.zipIdx.map fun x => ((entryFrom stem x).symbol, entryFrom stem x)).foldl
    (fun m x => m.insert x.1 x.2) ∅

theorem assign_result (census : Census) (stem : String) (es : List ClassExpression) :
    (assign census ⟨stem, 0⟩ es).result = .ok (entriesFrom stem es) := by
  unfold assign
  rw [Run.result_bind, Run.result_foldlM, foldlM_assign]
  · rw [Glossary.foldlM_insert (fun _ _ _ => rfl) (nodup_symbols stem es) fun _ _ => rfl]
    rfl
  · intro g k e
    simp only [Run.result_bind, SymbolSupply.fresh]
    rfl

/-- The symbols of expressions count their places. -/
theorem get?_entriesFrom :
    (entriesFrom stem es).get? n = some entry ↔
      ∃ k e, es[k]? = some e ∧ n = symbolAfter stem k ∧ entry = ⟨n, e, e⟩ := by
  have hKeys : ((es.zipIdx.map fun x =>
      ((entryFrom stem x).symbol, entryFrom stem x)).map Prod.fst).Nodup := by
    rw [List.map_map]
    exact nodup_symbols stem es
  refine (SortedMap.get?_foldl_insert hKeys).trans ?_
  constructor
  · rintro (hMem | ⟨-, hNone⟩)
    · obtain ⟨⟨e, k⟩, hx, hEq⟩ := List.mem_map.1 hMem
      obtain ⟨rfl, rfl⟩ := Prod.mk.inj hEq
      exact ⟨k, e, List.mk_mem_zipIdx_iff_getElem?.1 hx, rfl, rfl⟩
    · cases hNone
  · rintro ⟨k, e, he, rfl, rfl⟩
    exact Or.inl (List.mem_map.2 ⟨(e, k), List.mk_mem_zipIdx_iff_getElem?.2 he, rfl⟩)

/-! ## The glossary of a list of axioms -/

variable (axioms options)

/-- The axioms that are searched. -/
def corpusOf : SortedSet Axiom := .ofList (axioms.filter fun ax => !ax.hasComplement)

def censusOf : Census := .ofList (corpusOf axioms).toList

/-- The expressions that get symbols. -/
def candidatesOf : List ClassExpression :=
  (censusOf axioms).bottomUp.filter ((censusOf axioms).isCandidate options)

/-- The symbols of the candidates. -/
def symbolsOf : Glossary := entriesFrom options.stem (candidatesOf axioms options)

/-- What discovering symbols in some axioms gives. -/
def discoveredOf : Discovered where
  corpus := corpusOf axioms
  excluded := .ofList (axioms.filter Axiom.hasComplement)
  census := censusOf axioms
  glossary := (symbolsOf axioms options).published options.discoveredDefinition

variable {axioms options}

/-- Candidates are expressions of the corpus beyond both thresholds that nothing dominates. -/
theorem isCandidateOf_iff :
    e ∈ candidatesOf axioms options ↔ e ∈ (censusOf axioms).bottomUp ∧
      options.symbolSize < e.size ∧
      options.symbolOccurrences < (censusOf axioms).occurrences e ∧
      (censusOf axioms).dominating? e = none := by
  rw [candidatesOf, List.mem_filter, Census.isCandidate]
  simp [and_assoc]

/-- The candidates are nested inside the axioms. -/
theorem mem_candidatesOf (h : e ∈ candidatesOf axioms options) :
    ∃ ax ∈ axioms, e ∈ ax.positions := by
  obtain ⟨ax, hAx, he⟩ := Census.mem_bottomUp.1 (List.mem_filter.1 h).1
  exact ⟨ax, (List.mem_filter.1 (SortedSet.mem_ofList.1 hAx)).1, he⟩

theorem get?_symbolsOf :
    (symbolsOf axioms options).get? n = some entry ↔
      ∃ k e, (candidatesOf axioms options)[k]? = some e ∧ n = symbolAfter options.stem k ∧
        entry = ⟨n, e, e⟩ := get?_entriesFrom

theorem contains_symbolsOf :
    (symbolsOf axioms options).contains n = true ↔
      ∃ k < (candidatesOf axioms options).length, n = symbolAfter options.stem k := by
  rw [Glossary.contains, SortedMap.contains_iff]
  constructor
  · rintro ⟨entry, hGet⟩
    obtain ⟨k, e, he, hn, -⟩ := get?_symbolsOf.1 hGet
    exact ⟨k, (List.getElem?_eq_some_iff.1 he).1, hn⟩
  · rintro ⟨k, hk, hn⟩
    exact ⟨_, get?_symbolsOf.2 ⟨k, _, List.getElem?_eq_getElem hk, hn, rfl⟩⟩

theorem orderly_symbolsOf (hAxioms : ∀ ax ∈ axioms, ax.Canonical) (options : Options) :
    (symbolsOf axioms options).Orderly := by
  constructor
  · intro n entry hGet
    obtain ⟨k, e, -, rfl, rfl⟩ := get?_symbolsOf.1 hGet
    rfl
  · intro n entry hGet
    obtain ⟨k, e, he, rfl, rfl⟩ := get?_symbolsOf.1 hGet
    obtain ⟨ax, hAx, hMem⟩ := mem_candidatesOf (List.mem_of_getElem? he)
    exact Axiom.canonical_of_mem_positions (hAxioms ax hAx) hMem

/-- Discovering symbols never fails. -/
theorem ofList_result (hAxioms : ∀ ax ∈ axioms, ax.Canonical) (options : Options) :
    (ofList axioms options).result = .ok (discoveredOf axioms options) := by
  have hOrderly := orderly_symbolsOf hAxioms options
  unfold ofList search
  simp only [Run.result_bind]
  refine (Run.bind_of_eq_ok (assign_result _ _ _) _).trans ?_
  exact Run.bind_of_eq_ok (Glossary.foldDefinitions_result hOrderly) _

/-- Discovering symbols never fails. The symbols are the stem of the options followed by the numbers
up to the number of candidates, and axioms that mention none of them are not unfolded. -/
theorem ofList_symbols (hAxioms : ∀ ax ∈ axioms, ax.Canonical) (options : Options) :
    ∃ d, (ofList axioms options).result = .ok d ∧
      (∀ n, d.glossary.contains n = true ↔
        ∃ k < (d.census.bottomUp.filter (d.census.isCandidate options)).length,
          n = ⟨options.stem ++ toString (k + 1)⟩) ∧
      ∀ ax : Axiom, (∀ n ∈ ax.names, d.glossary.contains n = false) →
        (d.source.expand ax).result = Arena.ofPhrase (.statement ax) none := by
  refine ⟨_, ofList_result hAxioms options, ?_, ?_⟩
  · intro n
    show ((symbolsOf axioms options).published options.discoveredDefinition).contains n = true ↔ _
    rw [Glossary.contains_published]
    exact contains_symbolsOf
  · intro ax hFree
    exact Source.expand_eq_self hFree

/-- Two subsumptions share an expression. Nothing in them bears the name of its symbol, so that they
are not unfolded. -/
theorem ofList_symbols_shared :
    let link : ClassExpression := .quantified .existential (.named ⟨"r"⟩) (.named ⟨"C"⟩)
    let axioms : List Axiom := [.subClassOf (.named ⟨"A"⟩) link, .subClassOf (.named ⟨"B"⟩) link]
    (∀ ax ∈ axioms, ax.Canonical) ∧
    ∃ d, (ofList axioms {}).result = .ok d ∧
      (∀ n, d.glossary.contains n = true ↔
        ∃ k < (d.census.bottomUp.filter (d.census.isCandidate {})).length,
          n = ⟨({} : Options).stem ++ toString (k + 1)⟩) ∧
      (∀ ax : Axiom, (∀ n ∈ ax.names, d.glossary.contains n = false) →
        (d.source.expand ax).result = Arena.ofPhrase (.statement ax) none) ∧
      d.glossary.contains ⟨"http://owl.generated.macro#m_1"⟩ = true ∧
      ∀ ax ∈ axioms, (d.source.expand ax).result = Arena.ofPhrase (.statement ax) none := by
  intro link axioms
  have hAxioms : ∀ ax ∈ axioms, ax.Canonical := by decide +kernel
  obtain ⟨d, hRun, hSymbols, hKept⟩ := ofList_symbols hAxioms {}
  have hFacts : ∀ d, (ofList axioms {}).result = .ok d →
      d.glossary.contains ⟨"http://owl.generated.macro#m_1"⟩ = true ∧
      ∀ ax ∈ axioms, ∀ n ∈ ax.names, d.glossary.contains n = false := by
    decide +kernel
  obtain ⟨hFirst, hFresh⟩ := hFacts d hRun
  exact ⟨hAxioms, d, hRun, hSymbols, hKept, hFirst, fun ax hAx => hKept ax (hFresh ax hAx)⟩

/-- A class of the corpus bears the name of the first symbol. It is taken for the symbol, and an
axiom about it becomes one about the expression that has the symbol. -/
theorem not_fresh_of_generated_name :
    let link : ClassExpression := .quantified .existential (.named ⟨"r"⟩) (.named ⟨"C"⟩)
    let generated : Iri := ⟨"http://owl.generated.macro#m_1"⟩
    let ax : Axiom := .subClassOf (.named generated) (.named ⟨"D"⟩)
    let axioms : List Axiom :=
      [.subClassOf (.named ⟨"A"⟩) link, .subClassOf (.named ⟨"B"⟩) link, ax]
    (∀ ax ∈ axioms, ax.Canonical ∧ ax.hasComplement = false) ∧ generated ∈ ax.names ∧
    ∃ d a, (ofList axioms {}).result = .ok d ∧ d.glossary.contains generated = true ∧
      (d.source.expand ax).result = .ok a ∧
      a.decodeAxiom = .ok (.subClassOf link (.named ⟨"D"⟩)) := by
  intro link generated ax axioms
  refine ⟨by decide +kernel, by decide +kernel, ?_⟩
  have hRun : ((ofList axioms {}).result >>= fun d =>
      (d.source.expand ax).result >>= fun a => a.decodeAxiom >>= fun ax' =>
        .ok (d.glossary.contains generated, ax')) =
          .ok (true, .subClassOf link (.named ⟨"D"⟩)) := by
    decide +kernel
  obtain ⟨d, hDiscover, hRun⟩ := Run.bind_eq_ok hRun
  obtain ⟨a, hExpand, hRun⟩ := Run.bind_eq_ok hRun
  obtain ⟨ax', hDecode, hRun⟩ := Run.bind_eq_ok hRun
  obtain ⟨hContains, rfl⟩ := Prod.mk.inj (Except.ok.inj hRun)
  exact ⟨d, a, hDiscover, hContains, hExpand, hDecode⟩

end Discovered

end OntoFold
