import OntoFold.Glossary.Fold
import OntoFold.Proofs.Rewriting.Axioms
import OntoFold.Proofs.Rewriting.Substitution

/-!
# Sequences of substitutions

Substitutions done one after another rewrite the label of the root one after another, and the
arena is an encoding all the time.

* `Arena.Encodes.substituteClasses`: a sequence of substitutions never fails.
* `Arena.substitute_after_substituteClasses`: what one more substitution does, at every node.
-/

namespace OntoFold

open ClassExpression (byName replacing)

/-- The label after some rewritings, one after another. -/
def Label.rewriteEach (steps : List (ClassExpression × ClassExpression)) (l : Label) : Label :=
  steps.foldl (fun l step => l.rewrite (replacing step.1 step.2)) l

theorem Label.canonical_rewriteEach {steps : List (ClassExpression × ClassExpression)} {l : Label}
    (hSteps : ∀ step ∈ steps, step.2.Canonical) (hl : l.phrase.Canonical) :
    (l.rewriteEach steps).phrase.Canonical := by
  induction steps generalizing l with
  | nil => exact hl
  | cons step steps ih =>
    exact ih (fun s hs => hSteps s (List.mem_cons_of_mem _ hs)) (Phrase.canonical_rewrite
      (ClassExpression.canonical_of_replacing (hSteps step List.mem_cons_self)) hl)

/-- The number of positions that some replacements, one after another, replace. -/
def Label.occurrencesEach : List (ClassExpression × ClassExpression) → Label → Nat
  | [], _ => 0
  | (T, R) :: steps, l =>
    l.occurrences T R + Label.occurrencesEach steps (l.rewrite (replacing T R))

/-- Replacements without an occurrence change nothing. -/
theorem Label.rewriteEach_eq_self {steps : List (ClassExpression × ClassExpression)} {l : Label}
    (hSteps : ∀ step ∈ steps, step.2.Canonical) (hl : l.phrase.Canonical)
    (h : l.occurrencesEach steps = 0) : l.rewriteEach steps = l := by
  induction steps with
  | nil => rfl
  | cons step steps ih =>
    obtain ⟨hFirst, hRest⟩ := Nat.add_eq_zero_iff.1 h
    have hSame := l.rewrite_eq_self_of_occurrences hl (hSteps step List.mem_cons_self) hFirst
    rw [hSame] at hRest
    show Label.rewriteEach steps (l.rewrite (replacing step.1 step.2)) = l
    rw [hSame]
    exact ih (fun s hs => hSteps s (List.mem_cons_of_mem _ hs)) hRest

theorem Label.position_rewriteEach (steps : List (ClassExpression × ClassExpression)) (l : Label) :
    (l.rewriteEach steps).position = l.position := by
  induction steps generalizing l with
  | nil => rfl
  | cons step steps ih => exact ih _

theorem Label.rewriteEach_ofClass (steps : List (ClassExpression × ClassExpression))
    (e : ClassExpression) :
    Label.rewriteEach steps (.bare (.ofClass e)) = .bare (.ofClass (e.rewriteEach steps)) := by
  induction steps generalizing e with
  | nil => rfl
  | cons step steps ih =>
    show Label.rewriteEach steps (Label.rewrite (replacing step.1 step.2) _) = _
    rw [Label.rewrite_bare_ofClass, ih]
    rfl

/-- The axiom after some replacements, one after another. -/
def Axiom.rewriteEach (steps : List (ClassExpression × ClassExpression)) (ax : Axiom) : Axiom :=
  steps.foldl (fun ax step => ax.rewrite (replacing step.1 step.2)) ax

theorem Axiom.rewriteEach_append (steps rest : List (ClassExpression × ClassExpression))
    (ax : Axiom) : ax.rewriteEach (steps ++ rest) = (ax.rewriteEach steps).rewriteEach rest :=
  List.foldl_append

theorem Label.rewriteEach_statement (steps : List (ClassExpression × ClassExpression))
    (ax : Axiom) :
    Label.rewriteEach steps (.bare (.statement ax)) =
      .bare (.statement (ax.rewriteEach steps)) := by
  induction steps generalizing ax with
  | nil => rfl
  | cons step steps ih => exact ih _

theorem Axiom.canonical_rewriteEach {steps : List (ClassExpression × ClassExpression)}
    {ax : Axiom} (hSteps : ∀ step ∈ steps, step.2.Canonical) (h : ax.Canonical) :
    (ax.rewriteEach steps).Canonical := by
  have hLabel := Label.canonical_rewriteEach (l := .bare (.statement ax)) hSteps h
  rw [Label.rewriteEach_statement] at hLabel
  exact hLabel

/-! ## Unnoticed rewritings -/

namespace Axiom

variable {ax : Axiom} {f : Iri → Option ClassExpression}

/-- A rewriting by name does not notice a sequence of replacements that it would undo or do
itself, as long as none of them puts one name with a value in the place of another one. -/
theorem rewrite_rewriteEach {steps : List (ClassExpression × ClassExpression)}
    (h : ∀ step ∈ steps, step.1.rewrite (byName f) = step.2.rewrite (byName f) ∧
      ∀ n m, step = (.named n, .named m) → f n = none ∨ f m = none) :
    (ax.rewriteEach steps).rewrite (byName f) = ax.rewrite (byName f) := by
  induction steps generalizing ax with
  | nil => rfl
  | cons step steps ih =>
    obtain ⟨hSame, hNames⟩ := h step List.mem_cons_self
    show ((ax.rewrite (replacing step.1 step.2)).rewriteEach steps).rewrite (byName f) = _
    rw [ih fun s hs => h s (List.mem_cons_of_mem _ hs)]
    apply rewrite_rewrite_byName
    · intro t r hr
      obtain ⟨rfl, rfl⟩ := ClassExpression.replacing_eq_some.1 hr
      exact hSame
    · intro n m hr
      obtain ⟨hTarget, hReplacement⟩ := ClassExpression.replacing_eq_some.1 hr
      exact hNames n m (Prod.ext hTarget.symm hReplacement)

end Axiom

/-! ## Sequences of substitutions -/

namespace Arena

variable {a : Arena} {l : Label}

/-- A sequence of substitutions counts what it replaces. -/
theorem Encodes.substituteClasses_count (h : a.Encodes l) (hl : l.phrase.Canonical)
    {steps : List (ClassExpression × ClassExpression)}
    (hSteps : ∀ step ∈ steps, step.2.Canonical) (count : Nat) :
    ∃ b, (a.substituteClasses steps count).result = .ok (count + l.occurrencesEach steps, b) ∧
      b.Encodes (l.rewriteEach steps) := by
  induction steps generalizing a l count with
  | nil => exact ⟨a, rfl, h⟩
  | cons step steps ih =>
    obtain ⟨T, R⟩ := step
    have hR : R.Canonical := hSteps (T, R) List.mem_cons_self
    obtain ⟨b, hRun, hb⟩ := h.substitute (T := T) hl hR
    obtain ⟨c, hRest, hc⟩ := ih hb
      (Phrase.canonical_rewrite (ClassExpression.canonical_of_replacing hR) hl)
      (fun s hs => hSteps s (List.mem_cons_of_mem _ hs)) (count + l.occurrences T R)
    refine ⟨c, ?_, hc⟩
    rw [Arena.substituteClasses, Run.result_bind, hRun, Run.ok_bind, Label.occurrencesEach,
      ← Nat.add_assoc]
    exact hRest

/-- A sequence of substitutions never fails. -/
theorem Encodes.substituteClasses (h : a.Encodes l) (hl : l.phrase.Canonical)
    {steps : List (ClassExpression × ClassExpression)}
    (hSteps : ∀ step ∈ steps, step.2.Canonical) (count : Nat) :
    ∃ total b, (a.substituteClasses steps count).result = .ok (total, b) ∧
      b.Encodes (l.rewriteEach steps) := by
  obtain ⟨b, hRun, hb⟩ := h.substituteClasses_count hl hSteps count
  exact ⟨_, b, hRun, hb⟩

/-- Substitutions in the tree of a class expression rewrite the expression. -/
theorem Encodes.substituteClasses_ofClass {e : ClassExpression}
    (h : a.Encodes (.bare (.ofClass e))) (he : e.Canonical)
    {steps : List (ClassExpression × ClassExpression)}
    (hSteps : ∀ step ∈ steps, step.2.Canonical) :
    ∃ total b, (a.substituteClasses steps 0).result = .ok (total, b) ∧
      b.Encodes (.bare (.ofClass (e.rewriteEach steps))) := by
  obtain ⟨total, b, hRun, hb⟩ := h.substituteClasses he hSteps 0
  rw [Label.rewriteEach_ofClass] at hb
  exact ⟨total, b, hRun, hb⟩

theorem Encodes.decodeClass {e : ClassExpression} (h : a.Encodes (.bare (.ofClass e)))
    (he : e.Canonical) : a.decodeClass = .ok e := by
  unfold Arena.decodeClass
  rw [h.decode he]
  rfl

/-- However many substitutions have been done to the encoding of a phrase, one more succeeds.
The tree then stands for the rewritten phrase, every node holds what it stands for, the tree is
an encoding up to the order of sets, and all occurrences are counted. -/
theorem substitute_after_substituteClasses {p : Phrase} (hp : p.Canonical)
    (position : Option Position) {steps : List (ClassExpression × ClassExpression)}
    (hSteps : ∀ step ∈ steps, step.2.Canonical) {R : ClassExpression} (hR : R.Canonical)
    (T : ClassExpression) :
    ∃ (start : Arena) (total : Nat) (a : Arena) (q : Phrase) (b : Arena) (r : Phrase),
      ofPhrase p position = .ok start ∧
      (start.substituteClasses steps 0).result = .ok (total, a) ∧
      a.decode = .ok q ∧
      (a.substitute (.classExpression T) (.classExpression R)).result =
        .ok (Label.occurrences T R ⟨q, position⟩, b) ∧
      b.decode = .ok r ∧
      r = (Label.rewrite (replacing T R) ⟨q, position⟩).phrase ∧
      (∀ id n, b.get? id = some n → b.decodeAt id = .ok n.label.phrase) ∧
      (∃ t, b.tree = .ok t ∧ t.SameUpToOrder (r.encode position)) ∧ b.size = r.size := by
  obtain ⟨start, hStart, hEncodes⟩ := ofPhrase_encodes p position
  obtain ⟨total, a, hRun, ha⟩ := hEncodes.substituteClasses hp hSteps 0
  have hCanonical : (Label.rewriteEach steps ⟨p, position⟩).phrase.Canonical :=
    Label.canonical_rewriteEach hSteps hp
  have hPosition : (Label.rewriteEach steps ⟨p, position⟩).position = position :=
    Label.position_rewriteEach steps ⟨p, position⟩
  generalize hq : Label.rewriteEach steps ⟨p, position⟩ = l at *
  obtain ⟨q, position'⟩ := l
  obtain rfl : position' = position := hPosition
  obtain ⟨b, hStep, hb⟩ := ha.substitute (T := T) hCanonical hR
  have hRewritten : (Label.rewrite (replacing T R) ⟨q, position'⟩).phrase.Canonical :=
    Phrase.canonical_rewrite (ClassExpression.canonical_of_replacing hR) hCanonical
  obtain ⟨t, hTree, hLabel, hFaithful⟩ := hb.tree
  have hSame := hFaithful.sameUpToOrder
  rw [hLabel] at hSame
  exact ⟨start, total, a, q, b, _, hStart, hRun, ha.decode hCanonical, hStep,
    hb.decode hRewritten, rfl, fun id n hGet => hb.decodeAt hRewritten hGet,
    ⟨t, hTree, hSame⟩, hb.size⟩

/-- Renaming one operand to another one merges them; then what is left is replaced. -/
theorem substitute_after_substituteClasses_merging :
    let p : Phrase := .statement (.disjointUnion ⟨"A"⟩
      [.named ⟨"A"⟩, .named ⟨"B"⟩, .quantified .existential (.named ⟨"r"⟩) (.named ⟨"B"⟩)])
    let steps : List (ClassExpression × ClassExpression) := [(.named ⟨"B"⟩, .named ⟨"A"⟩)]
    let R : ClassExpression := .complement (.named ⟨"C"⟩)
    p.Canonical ∧ (∀ step ∈ steps, step.2.Canonical) ∧ R.Canonical ∧
    ∃ (start : Arena) (total : Nat) (a : Arena) (q : Phrase) (b : Arena) (r : Phrase),
      ofPhrase p none = .ok start ∧
      (start.substituteClasses steps 0).result = .ok (total, a) ∧
      a.decode = .ok q ∧
      (a.substitute (.classExpression (.named ⟨"A"⟩)) (.classExpression R)).result =
        .ok (Label.occurrences (.named ⟨"A"⟩) R ⟨q, none⟩, b) ∧
      b.decode = .ok r ∧
      r = (Label.rewrite (replacing (.named ⟨"A"⟩) R) ⟨q, none⟩).phrase ∧
      (∀ id n, b.get? id = some n → b.decodeAt id = .ok n.label.phrase) ∧
      (∃ t, b.tree = .ok t ∧ t.SameUpToOrder (r.encode none)) ∧ b.size = r.size ∧
      q = .statement (.disjointUnion ⟨"A"⟩
        [.named ⟨"A"⟩, .quantified .existential (.named ⟨"r"⟩) (.named ⟨"A"⟩)]) ∧
      r = .statement (.disjointUnion ⟨"A"⟩ [R, .quantified .existential (.named ⟨"r"⟩) R]) := by
  intro p steps R
  have hp : p.Canonical := by decide +kernel
  have hSteps : ∀ step ∈ steps, step.2.Canonical := by
    intro step hStep
    rw [List.mem_singleton.1 hStep]
    rfl
  have hR : R.Canonical := rfl
  obtain ⟨start, total, a, q, b, r, hStart, hRun, hDecode, hSubstitute, hResult, hRewritten, hNodes,
    hTree, hSize⟩ := substitute_after_substituteClasses hp none hSteps hR (.named ⟨"A"⟩)
  have hMerged : ∀ start, ofPhrase p none = .ok start →
      ∀ x, (start.substituteClasses steps 0).result = .ok x →
        x.2.decode = .ok (.statement (.disjointUnion ⟨"A"⟩
          [.named ⟨"A"⟩, .quantified .existential (.named ⟨"r"⟩) (.named ⟨"A"⟩)])) := by
    decide +kernel
  obtain rfl := Except.ok.inj (hDecode.symm.trans (hMerged start hStart _ hRun))
  refine ⟨hp, hSteps, hR, start, total, a, _, b, r, hStart, hRun, hDecode, hSubstitute, hResult,
    hRewritten, hNodes, hTree, hSize, rfl, hRewritten.trans ?_⟩
  decide +kernel

end Arena

end OntoFold
