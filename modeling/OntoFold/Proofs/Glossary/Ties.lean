import Mathlib.Data.List.Induction
import OntoFold.Proofs.Glossary.Folding

/-!
# Ties

Several symbols of a glossary may have one evaluation, which is then folded into the smallest of
them. A glossary searches for this symbol; a lexicon keeps it beside the evaluation while entries
come in, and lets it give way to smaller ones. Both find the same symbols, whatever the order in
which the entries come.

* `smallest_foldl_keep`: what a lexicon keeps beside an expression is the smallest of its symbols.
* `Glossary.Orderly.smallest`: so is what a glossary finds for it.
* `Lexicon.agrees_ofEntries`, `Lexicon.foldDefinitions_result`: a lexicon folds as its glossary
  does.
* `Lexicon.insertAll_reordered`: the order of the entries does not matter.
-/

namespace OntoFold

/-! ## The order of names -/

/-- Names are ordered by their texts. -/
theorem Iri.compare_eq_lt {m n : Iri} : compare m n = .lt ↔ m.text < n.text := by
  rw [Keyed.compare_eq]
  show compare [Token.text m.text] [Token.text n.text] = .lt ↔ _
  rw [List.compare_cons_cons, List.compare_nil_nil, Ordering.then_eq, Token.compare_eq]
  exact compareOfLessAndEq_eq_lt

/-! ## Lexicons -/

/-- A glossary that keeps a symbol beside each evaluation. -/
structure Lexicon where
  glossary : Glossary := ∅
  symbols : SortedMap ClassExpression Iri := ∅

namespace Lexicon

/-- A symbol, unless a smaller one is known. -/
def prefer (symbol : Iri) : Option Iri → Iri
  | none => symbol
  | some known => if compare symbol known = .lt then symbol else known

/-- Makes the symbol of an entry known. -/
def keep (symbols : SortedMap ClassExpression Iri) (entry : Entry) :
    SortedMap ClassExpression Iri :=
  symbols.alter entry.evaluation (prefer entry.symbol)

variable (lex : Lexicon)

/-- Adds an entry for a new symbol. -/
def insert (entry : Entry) : Except Fault Lexicon := do
  let glossary ← lex.glossary.insert entry
  return ⟨glossary, keep lex.symbols entry⟩

/-- Adds entries one after another to an empty lexicon. -/
def insertAll (entries : List Entry) : Except Fault Lexicon := entries.foldlM insert {}

/-- The symbol that is kept beside an expression. -/
def symbolFor? (e : ClassExpression) : Option Iri := lex.symbols.get? e

/-- The published definition of a symbol. -/
def definition? (symbol : Iri) : Option ClassExpression := lex.glossary.definition? symbol

/-- Replaces those of the given expressions that are evaluations and larger than a threshold by
their symbols. -/
def fold (a : Arena) (es : SortedSet ClassExpression) (threshold : Nat) : Run (Nat × Arena) :=
  a.substituteClasses
    ((Glossary.foldOrder es threshold).filterMap fun e =>
      (lex.symbolFor? e).map fun symbol => (e, .named symbol)) 0

/-- The evaluation of an entry with the symbols nested inside it folded. -/
def foldEntry (threshold : Nat) (entry : Entry) : Run (Iri × ClassExpression) := do
  let a ← Arena.ofPhrase (.ofClass entry.evaluation) none
  let (count, a) ← lex.fold a (entry.evaluation.nested.erase entry.evaluation) threshold
  .report .debug ("minimal definition of " ++ entry.symbol.render ++ " folds " ++
    toString count ++ " sub-expressions")
  return (entry.symbol, ← a.decodeClass)

/-- Folds the definitions of all entries with the symbols of the lexicon. -/
def foldDefinitions (threshold : Nat) : Run Lexicon := do
  let definitions ← lex.glossary.toList.mapM (lex.foldEntry threshold)
  return { lex with
    glossary := { lex.glossary with
      folded := definitions.foldl (fun m (symbol, e) => m.insert symbol e) ∅ } }

end Lexicon

variable {entries xs ys : List Entry} {entry : Entry} {e : ClassExpression} {n : Iri}
  {names : List Iri} {lex : Lexicon}

/-! ## Smallest names -/

/-- The smallest of some names, if there are any. -/
def Smallest (names : List Iri) : Option Iri → Prop
  | none => names = []
  | some n => n ∈ names ∧ ∀ m ∈ names, n.text ≤ m.text

namespace Smallest

theorem unique {p q : Option Iri} (hp : Smallest names p) (hq : Smallest names q) : p = q := by
  cases p with
  | none =>
    cases q with
    | none => rfl
    | some m =>
      obtain rfl : names = [] := hp
      cases hq.1
  | some n =>
    cases q with
    | none =>
      obtain rfl : names = [] := hq
      cases hp.1
    | some m =>
      have hText := String.le_antisymm (hp.2 m hq.1) (hq.2 n hp.1)
      exact congrArg some (congrArg Iri.mk hText)

theorem eq_some_iff {p : Option Iri} (h : Smallest names p) :
    p = some n ↔ n ∈ names ∧ ∀ m ∈ names, n.text ≤ m.text := by
  constructor
  · rintro rfl
    exact h
  · exact fun hn => h.unique (q := some n) hn

theorem eq_none_iff {p : Option Iri} (h : Smallest names p) : p = none ↔ names = [] := by
  constructor
  · rintro rfl
    exact h
  · exact fun hEmpty => h.unique (q := none) hEmpty

theorem congr {names' : List Iri} {p : Option Iri} (h : Smallest names p)
    (hMem : ∀ n, n ∈ names ↔ n ∈ names') : Smallest names' p := by
  cases p with
  | none => exact List.eq_nil_iff_forall_not_mem.2 fun n hn => by simp_all [Smallest]
  | some n => simpa only [Smallest, hMem] using h

/-- The smaller one of a name and the smallest of the earlier ones is the smallest of all. -/
theorem prefer {p : Option Iri} (h : Smallest names p) :
    Smallest (names ++ [n]) (some (Lexicon.prefer n p)) := by
  cases p with
  | none =>
    obtain rfl : names = [] := h
    refine ⟨List.mem_singleton_self n, fun m hm => ?_⟩
    rw [List.mem_singleton.1 hm]
    exact String.le_refl _
  | some known =>
    obtain ⟨hKnown, hLeast⟩ := h
    simp only [Smallest, List.mem_append, List.mem_singleton, or_imp, forall_and, forall_eq]
    by_cases hLess : compare n known = .lt
    · rw [Lexicon.prefer, if_pos hLess]
      have hLe : n.text ≤ known.text := Std.le_of_lt (Iri.compare_eq_lt.1 hLess)
      exact ⟨Or.inr rfl, fun m hm => String.le_trans hLe (hLeast m hm), String.le_refl _⟩
    · rw [Lexicon.prefer, if_neg hLess]
      rw [Iri.compare_eq_lt] at hLess
      exact ⟨Or.inl hKnown, hLeast, String.not_lt.1 hLess⟩

end Smallest

/-! ## The symbols of an evaluation -/

/-- The symbols of the entries with a given evaluation. -/
def tied (entries : List Entry) (e : ClassExpression) : List Iri :=
  (entries.filter fun entry => entry.evaluation = e).map Entry.symbol

theorem mem_tied :
    n ∈ tied entries e ↔ ∃ entry ∈ entries, entry.evaluation = e ∧ entry.symbol = n := by
  simp [tied, and_assoc]

theorem tied_eq_nil :
    tied entries e = [] ↔ ∀ entry ∈ entries, entry.evaluation ≠ e := by
  simp [tied]

theorem tied_concat_self :
    tied (entries ++ [entry]) entry.evaluation =
      tied entries entry.evaluation ++ [entry.symbol] := by
  simp [tied]

theorem tied_concat_ne (h : entry.evaluation ≠ e) :
    tied (entries ++ [entry]) e = tied entries e := by
  simp [tied, h]

/-- What is kept beside an expression is the smallest of its symbols. -/
theorem smallest_foldl_keep (entries : List Entry) (e : ClassExpression) :
    Smallest (tied entries e) ((entries.foldl Lexicon.keep ∅).get? e) := by
  induction entries using List.reverseRecOn with
  | nil => rfl
  | append_singleton entries entry ih =>
    rw [List.foldl_concat, Lexicon.keep, SortedMap.get?_alter]
    split
    · next hSame =>
      obtain rfl := Std.LawfulEqOrd.eq_of_compare hSame
      rw [tied_concat_self]
      exact ih.prefer
    · next hOther =>
      rw [tied_concat_ne]
      · exact ih
      · rintro rfl
        exact hOther Std.ReflOrd.compare_self

/-- The entries of a glossary come in the order of their symbols. -/
theorem Glossary.Orderly.pairwise_toList {g : Glossary} (hg : g.Orderly) :
    g.toList.Pairwise fun x y => x.symbol.text < y.symbol.text := by
  refine List.pairwise_map.2 ?_
  refine List.Pairwise.imp_of_mem ?_ (List.pairwise_map.1 g.entries.ascending)
  rintro ⟨m, x⟩ ⟨n, y⟩ hx hy hLt
  rw [← hg.symbol m x (SortedMap.get?_eq_some_iff.2 hx),
    ← hg.symbol n y (SortedMap.get?_eq_some_iff.2 hy)] at hLt
  exact Iri.compare_eq_lt.1 hLt

/-- What a glossary finds for an expression is the smallest of its symbols. -/
theorem Glossary.Orderly.smallest {g : Glossary} (hg : g.Orderly) (e : ClassExpression) :
    Smallest (tied g.toList e) (g.symbolFor? e) := by
  unfold Glossary.symbolFor?
  cases hFind : g.toList.find? fun entry => entry.evaluation = e with
  | none => exact tied_eq_nil.2 (by simpa using hFind)
  | some entry =>
    obtain ⟨hEvaluation, before, after, hList, hBefore⟩ := List.find?_eq_some_iff_append.1 hFind
    have hOrder := hg.pairwise_toList
    rw [hList, List.pairwise_append, List.pairwise_cons] at hOrder
    refine ⟨mem_tied.2 ⟨entry, List.mem_of_find?_eq_some hFind, by simpa using hEvaluation, rfl⟩,
      fun m hm => ?_⟩
    obtain ⟨x, hx, hSame, rfl⟩ := mem_tied.1 hm
    rw [hList, List.mem_append, List.mem_cons] at hx
    rcases hx with hEarlier | rfl | hLater
    · exact absurd hSame (by simpa using hBefore x hEarlier)
    · exact String.le_refl _
    · exact Std.le_of_lt (hOrder.2.1.1 x hLater)

/-! ## Adding entries -/

/-- The glossary with some entries depends on which entries there are, not on their order. -/
theorem Glossary.ofEntries_perm (hSymbols : (xs.map Entry.symbol).Nodup) (hPerm : ys.Perm xs) :
    Glossary.ofEntries ys = Glossary.ofEntries xs := by
  have hSymbols' : (ys.map Entry.symbol).Nodup := (hPerm.map Entry.symbol).nodup_iff.2 hSymbols
  refine congrArg (Glossary.mk · ∅) (SortedMap.ext fun n => Option.ext fun entry => ?_)
  calc
    (Glossary.ofEntries ys).get? n = some entry ↔ entry ∈ ys ∧ entry.symbol = n :=
      Glossary.get?_ofEntries hSymbols'
    _ ↔ entry ∈ xs ∧ entry.symbol = n := and_congr_left fun _ => hPerm.mem_iff
    _ ↔ (Glossary.ofEntries xs).get? n = some entry := (Glossary.get?_ofEntries hSymbols).symm

theorem Glossary.mem_toList_ofEntries (hSymbols : (xs.map Entry.symbol).Nodup) :
    entry ∈ (Glossary.ofEntries xs).toList ↔ entry ∈ xs := by
  simp only [Glossary.mem_toList, Glossary.get?_ofEntries hSymbols, exists_and_left,
    exists_eq', and_true]

namespace Lexicon

/-- The lexicon with some entries. -/
def ofEntries (entries : List Entry) : Lexicon := ⟨.ofEntries entries, entries.foldl keep ∅⟩

/-- Entries are added to the glossary and to the symbols side by side. -/
theorem foldlM_insert (entries : List Entry) (lex : Lexicon) :
    entries.foldlM insert lex = do
      let glossary ← entries.foldlM Glossary.insert lex.glossary
      return ⟨glossary, entries.foldl keep lex.symbols⟩ := by
  induction entries generalizing lex with
  | nil => rfl
  | cons entry entries ih =>
    rw [List.foldlM_cons, List.foldlM_cons, insert]
    cases lex.glossary.insert entry with
    | error fault => rfl
    | ok glossary => exact ih ⟨glossary, keep lex.symbols entry⟩

theorem insertAll_eq_ok (hSymbols : (xs.map Entry.symbol).Nodup) :
    insertAll xs = .ok (ofEntries xs) := by
  rw [insertAll, foldlM_insert, Glossary.foldlM_insert_empty hSymbols]
  rfl

theorem smallest_ofEntries (entries : List Entry) (e : ClassExpression) :
    Smallest (tied entries e) ((ofEntries entries).symbolFor? e) :=
  smallest_foldl_keep entries e

/-- The symbols do not depend on the order of the entries either. -/
theorem ofEntries_perm (hSymbols : (xs.map Entry.symbol).Nodup) (hPerm : ys.Perm xs) :
    ofEntries ys = ofEntries xs := by
  have hKept : ys.foldl keep ∅ = xs.foldl keep ∅ := by
    refine SortedMap.ext fun e => Smallest.unique (smallest_foldl_keep ys e) ?_
    refine (smallest_foldl_keep xs e).congr fun n => ?_
    rw [mem_tied, mem_tied]
    simp only [hPerm.mem_iff]
  rw [ofEntries, ofEntries, Glossary.ofEntries_perm hSymbols hPerm, hKept]

/-! ## Folding -/

/-- A lexicon answers and folds as its glossary does. -/
structure Agrees (lex : Lexicon) : Prop where
  symbolFor? : ∀ e, lex.symbolFor? e = lex.glossary.symbolFor? e
  fold : ∀ a es threshold, lex.fold a es threshold = lex.glossary.fold a es threshold
  foldDefinitions : ∀ threshold, lex.foldDefinitions threshold = do
    let glossary ← lex.glossary.foldDefinitions threshold
    return { lex with glossary }

theorem agrees_of_symbolFor? (h : ∀ e, lex.symbolFor? e = lex.glossary.symbolFor? e) :
    lex.Agrees := by
  have hFold : ∀ a es threshold, lex.fold a es threshold = lex.glossary.fold a es threshold := by
    intro a es threshold
    unfold fold Glossary.fold
    simp only [h]
  have hEntry : ∀ threshold, lex.foldEntry threshold = lex.glossary.foldEntry threshold := by
    intro threshold
    funext entry
    unfold foldEntry Glossary.foldEntry
    simp only [hFold]
  refine ⟨h, hFold, fun threshold => ?_⟩
  unfold foldDefinitions Glossary.foldDefinitions
  simp only [hEntry, bind_assoc, pure_bind]

theorem agrees_ofEntries (hSymbols : (xs.map Entry.symbol).Nodup)
    (hCanonical : ∀ x ∈ xs, x.evaluation.Canonical) : (ofEntries xs).Agrees := by
  apply agrees_of_symbolFor?
  intro e
  refine Smallest.unique (smallest_ofEntries xs e) ?_
  refine ((Glossary.orderly_ofEntries hSymbols hCanonical).smallest e).congr fun n => ?_
  rw [mem_tied, mem_tied]
  simp only [Glossary.mem_toList_ofEntries hSymbols]

/-- Folding the definitions of a lexicon never fails. -/
theorem foldDefinitions_result (hAgrees : lex.Agrees) (hOrderly : lex.glossary.Orderly)
    (threshold : Nat) :
    (lex.foldDefinitions threshold).result =
      .ok { lex with glossary := lex.glossary.published threshold } := by
  rw [hAgrees.foldDefinitions, Run.result_bind, Glossary.foldDefinitions_result hOrderly]
  rfl

/-! ## The order of the entries -/

/-- Entries with distinct symbols can be added in any order. Of the symbols that evaluate to an
expression the smallest one is found, and no symbol is found for two expressions. Whatever the
order, the definitions that are published and whatever is folded are the same, and the same as
without keeping symbols at hand. -/
theorem insertAll_reordered (hSymbols : (xs.map Entry.symbol).Nodup)
    (hCanonical : ∀ x ∈ xs, x.evaluation.Canonical) (hPerm : ys.Perm xs) :
    ∃ s t, insertAll xs = .ok s ∧ insertAll ys = .ok t ∧
      xs.foldlM Glossary.insert ∅ = .ok s.glossary ∧
      ys.foldlM Glossary.insert ∅ = .ok t.glossary ∧ s.Agrees ∧ t.Agrees ∧
      (∀ e, s.symbolFor? e = t.symbolFor? e) ∧
      (∀ e n, s.symbolFor? e = some n ↔
        n ∈ tied xs e ∧ ∀ m ∈ tied xs e, n.text ≤ m.text) ∧
      (∀ e, s.symbolFor? e = none ↔ ∀ x ∈ xs, x.evaluation ≠ e) ∧
      (∀ e e' n, s.symbolFor? e = some n → s.symbolFor? e' = some n → e = e') ∧
      ∀ threshold, ∃ s' t', (s.foldDefinitions threshold).result = .ok s' ∧
        (t.foldDefinitions threshold).result = .ok t' ∧
        (∀ x ∈ xs, s'.definition? x.symbol = some (s.glossary.foldedEvaluation threshold x)) ∧
        (∀ n, s'.definition? n = t'.definition? n) ∧
        ∀ a es k, s'.fold a es k = t'.fold a es k := by
  have hSmallest := smallest_ofEntries xs
  have hOrderly := Glossary.orderly_ofEntries hSymbols hCanonical
  have hAgrees := agrees_ofEntries hSymbols hCanonical
  have hSymbols' : (ys.map Entry.symbol).Nodup := (hPerm.map Entry.symbol).nodup_iff.2 hSymbols
  have hOther : insertAll ys = .ok (ofEntries xs) := by
    rw [insertAll_eq_ok hSymbols', ofEntries_perm hSymbols hPerm]
  have hOtherGlossary : ys.foldlM Glossary.insert ∅ = .ok (ofEntries xs).glossary := by
    rw [Glossary.foldlM_insert_empty hSymbols', Glossary.ofEntries_perm hSymbols hPerm]
    rfl
  refine ⟨_, _, insertAll_eq_ok hSymbols, hOther, Glossary.foldlM_insert_empty hSymbols,
    hOtherGlossary, hAgrees, hAgrees, fun e => rfl, fun e n => ?_, fun e => ?_,
    fun e e' n he he' => ?_, fun threshold => ?_⟩
  · exact (hSmallest e).eq_some_iff
  · rw [← tied_eq_nil]
    exact (hSmallest e).eq_none_iff
  · obtain ⟨x, hx, rfl, rfl⟩ := mem_tied.1 ((hSmallest e).eq_some_iff.1 he).1
    obtain ⟨y, hy, rfl, hSame⟩ := mem_tied.1 ((hSmallest e').eq_some_iff.1 he').1
    rw [List.inj_on_of_nodup_map hSymbols hy hx hSame]
  · have hFold := foldDefinitions_result hAgrees hOrderly threshold
    refine ⟨_, _, hFold, hFold, fun x hx => ?_, fun _ => rfl, fun _ _ _ => rfl⟩
    exact Glossary.definition?_published hOrderly ((Glossary.get?_ofEntries hSymbols).2 ⟨hx, rfl⟩)

/-- Three symbols for an expression that also occurs in the evaluation of a fourth one, with the
smallest of them neither first nor last. -/
theorem insertAll_reordered_tie :
    let link (p : String) (e : ClassExpression) : ClassExpression :=
      .quantified .existential (.named ⟨p⟩) e
    let inner := link "r" (.named ⟨"C"⟩)
    let entry (n : String) (e : ClassExpression) : Entry := ⟨⟨n⟩, e, e⟩
    let xs := [entry "Z" inner, entry "O" (link "s" inner), entry "M" inner, entry "P" inner]
    ((xs.map Entry.symbol).Nodup ∧ (∀ x ∈ xs, x.evaluation.Canonical) ∧ xs.reverse.Perm xs) ∧
    ∃ s t, insertAll xs = .ok s ∧ insertAll xs.reverse = .ok t ∧
      (∀ e, s.symbolFor? e = t.symbolFor? e) ∧ s.symbolFor? inner = some ⟨"M"⟩ ∧
      ∃ s' t', (s.foldDefinitions 1).result = .ok s' ∧ (t.foldDefinitions 1).result = .ok t' ∧
        (∀ n, s'.definition? n = t'.definition? n) ∧
        ∀ a es k, s'.fold a es k = t'.fold a es k := by
  intro link inner entry xs
  have hSymbols : (xs.map Entry.symbol).Nodup := by decide +kernel
  have hCanonical : ∀ x ∈ xs, x.evaluation.Canonical := by decide +kernel
  have hPerm : xs.reverse.Perm xs := List.reverse_perm xs
  obtain ⟨s, t, hs, ht, -, -, -, -, hSame, hLeast, -, -, hFold⟩ :=
    insertAll_reordered hSymbols hCanonical hPerm
  obtain ⟨s', t', hs', ht', -, hDefinitions, hFolds⟩ := hFold 1
  refine ⟨⟨hSymbols, hCanonical, hPerm⟩, s, t, hs, ht, hSame, (hLeast inner ⟨"M"⟩).2 ?_, s', t',
    hs', ht', hDefinitions, hFolds⟩
  decide +kernel

end Lexicon

end OntoFold
