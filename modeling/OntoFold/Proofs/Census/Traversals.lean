import OntoFold.Proofs.Arena.Encoding
import OntoFold.Proofs.Census.Occurrences

/-!
# Walks through class expressions

What is nested inside an expression, the names in it and its complements can be found by walking
from expressions to their operands. A walk that collects a set need not enter an expression that it
has met before: while it is on its way through the operands of an expression, only larger
expressions have been met without all that is nested inside them. The walks find what stands at the
nodes of trees.

* `ClassExpression.mem_gather`: what a walk without repetitions collects.
* `ClassExpression.mem_gatherNames`, `ClassExpression.meetsComplement_eq`: names and complements.
* `Arena.classes_ofPhrase`: the class expressions at the nodes of a tree.
* `Arena.traversals_agree`: all walks and trees agree.
-/

namespace OntoFold

namespace ClassExpression

variable {e t : ClassExpression} {es : List ClassExpression} {met : SortedSet ClassExpression}
  {found : SortedSet Iri} {n : Iri}

/-! ## Collecting what is nested inside -/

/-- Adds an expression and everything nested inside it to a set. What belongs to the set is not
entered again. -/
def gather (e : ClassExpression) (met : SortedSet ClassExpression) : SortedSet ClassExpression :=
  if e ∈ met then met else e.operands.attach.foldl (fun met o => o.1.gather met) (met.insert e)
termination_by e.size
decreasing_by exact size_lt_of_mem_operands o.2

/-- Everything nested inside the members of a set up to some size belongs to the set. -/
def Settled (size : Nat) (met : SortedSet ClassExpression) : Prop :=
  ∀ x ∈ met, x.size ≤ size → ∀ t ∈ x.positions, t ∈ met

/-- Walking through some expressions, one after another, collects what is nested inside them. -/
theorem mem_foldl_gather
    (hEach : ∀ o ∈ es, ∀ met, Settled o.size met →
      ∀ t, t ∈ o.gather met ↔ t ∈ met ∨ t ∈ o.positions)
    (hMet : ∀ o ∈ es, Settled o.size met) :
    t ∈ es.foldl (fun met o => o.gather met) met ↔ t ∈ met ∨ ∃ o ∈ es, t ∈ o.positions := by
  induction es generalizing met with
  | nil => simp
  | cons o es ih =>
    have hFirst := hEach o List.mem_cons_self met (hMet o List.mem_cons_self)
    have hNext : ∀ o' ∈ es, Settled o'.size (o.gather met) := by
      intro o' ho' x hx hSize s hs
      rcases (hFirst x).1 hx with hOld | hNew
      · exact (hFirst s).2 (Or.inl (hMet o' (List.mem_cons_of_mem _ ho') x hOld hSize s hs))
      · exact (hFirst s).2 (Or.inr (mem_positions_trans hNew hs))
    rw [List.foldl_cons, ih (fun o' ho' => hEach o' (List.mem_cons_of_mem _ ho')) hNext, hFirst,
      or_assoc]
    simp only [List.mem_cons, or_and_right, exists_or, exists_eq_left]

/-- When everything inside the members up to the size of an expression has been met, the walk
collects what is nested inside the expression. -/
theorem mem_gather (h : Settled e.size met) : t ∈ e.gather met ↔ t ∈ met ∨ t ∈ e.positions := by
  induction e using operands_induction generalizing met t with
  | step e ih =>
    rw [gather]
    split
    · next hMem => exact (or_iff_left_of_imp fun ht => h e hMem (Nat.le_refl _) t ht).symm
    · -- The expression itself is met before its operands, but it is larger than they are.
      have hSettled : ∀ o ∈ e.operands, Settled o.size (met.insert e) := by
        intro o ho x hx hSize s hs
        have hSmaller := size_lt_of_mem_operands ho
        rcases SortedSet.mem_insert.1 hx with rfl | hOld
        · exact absurd hSmaller (Nat.not_lt.2 hSize)
        · have hLe : x.size ≤ e.size := Nat.le_trans hSize (Nat.le_of_lt hSmaller)
          exact SortedSet.mem_insert.2 (Or.inr (h x hOld hLe s hs))
      rw [List.foldl_attach (f := fun met o => gather o met),
        mem_foldl_gather (fun o ho met' h' t' => ih o ho h') hSettled, SortedSet.mem_insert,
        mem_positions_iff, or_comm (a := t = e), or_assoc]

/-- Walking from the empty set collects what is nested inside an expression. -/
theorem gather_empty (e : ClassExpression) : e.gather ∅ = e.nested := by
  apply SortedSet.ext
  intro t
  rw [mem_gather fun x hx => absurd hx SortedSet.not_mem_empty, nested, SortedSet.mem_ofList]
  exact or_iff_right SortedSet.not_mem_empty

/-! ## Collecting names -/

/-- Adds the names in an expression to a set. -/
def gatherNames (e : ClassExpression) (found : SortedSet Iri) : SortedSet Iri :=
  match e.name? with
  | some n => found.insert n
  | none => e.operands.attach.foldl (fun found o => o.1.gatherNames found) found
termination_by e.size
decreasing_by exact size_lt_of_mem_operands o.2

theorem mem_foldl_gatherNames
    (hEach : ∀ o ∈ es, ∀ found, n ∈ o.gatherNames found ↔ n ∈ found ∨ .named n ∈ o.positions) :
    n ∈ es.foldl (fun found o => o.gatherNames found) found ↔
      n ∈ found ∨ ∃ o ∈ es, .named n ∈ o.positions := by
  induction es generalizing found with
  | nil => simp
  | cons o es ih =>
    rw [List.foldl_cons, ih fun o' ho' => hEach o' (List.mem_cons_of_mem _ ho'),
      hEach o List.mem_cons_self, or_assoc]
    simp only [List.mem_cons, or_and_right, exists_or, exists_eq_left]

theorem mem_gatherNames : n ∈ e.gatherNames found ↔ n ∈ found ∨ .named n ∈ e.positions := by
  induction e using operands_induction generalizing found with
  | step e ih =>
    rw [gatherNames]
    split
    · next m hName =>
      obtain rfl := eq_named_of_name? hName
      rw [SortedSet.mem_insert, or_comm]
      simp [positions]
    · next hNone =>
      have hNe : named n ≠ e := by
        rintro rfl
        cases hNone
      rw [List.foldl_attach (f := fun found o => gatherNames o found),
        mem_foldl_gatherNames fun o ho found => ih o ho, mem_positions_iff, or_iff_right hNe]

theorem gatherNames_empty (e : ClassExpression) : e.gatherNames ∅ = e.names := by
  apply SortedSet.ext
  intro n
  rw [mem_gatherNames, names, SortedSet.mem_ofList, mem_filterMap_name?]
  exact or_iff_right SortedSet.not_mem_empty

/-! ## Looking for complements -/

/-- Whether a walk meets a complement. -/
def meetsComplement (e : ClassExpression) : Bool :=
  e.isComplement || e.operands.attach.any fun o => o.1.meetsComplement
termination_by e.size
decreasing_by exact size_lt_of_mem_operands o.2

theorem meetsComplement_eq (e : ClassExpression) : e.meetsComplement = e.hasComplement := by
  induction e using operands_induction with
  | step e ih =>
    have hOperands : (e.operands.attach.any fun o => o.1.meetsComplement) =
        e.operands.any hasComplement := by
      rw [List.any_subtype ih, List.unattach_attach]
    rw [meetsComplement, hOperands, hasComplement, positions_eq, List.any_cons, List.any_flatMap]
    rfl

end ClassExpression

/-! ## Axioms -/

namespace Axiom

/-- Collects what is nested inside an axiom, beginning with the class it defines. -/
def gather (ax : Axiom) : SortedSet ClassExpression :=
  ax.operands.foldl (fun met o => o.gather met) (.ofList (ax.definedClass?.map .named).toList)

/-- Collects the names in an axiom, beginning with the class it defines. -/
def gatherNames (ax : Axiom) : SortedSet Iri :=
  ax.operands.foldl (fun found o => o.gatherNames found) (.ofList ax.definedClass?.toList)

/-- Whether walks through the operands meet a complement. -/
def meetsComplement (ax : Axiom) : Bool := ax.operands.any ClassExpression.meetsComplement

theorem gather_eq (ax : Axiom) : ax.gather = ax.nested := by
  apply SortedSet.ext
  intro t
  have hDefined : ∀ size,
      ClassExpression.Settled size (.ofList (ax.definedClass?.map .named).toList) := by
    intro size x hx _ s hs
    obtain ⟨d, -, rfl⟩ :=
      Option.map_eq_some_iff.1 (Option.mem_toList.1 (SortedSet.mem_ofList.1 hx))
    rwa [List.mem_singleton.1 hs]
  rw [gather, ClassExpression.mem_foldl_gather (fun o _ met h t => ClassExpression.mem_gather h)
    fun o _ => hDefined o.size, nested, SortedSet.mem_ofList, SortedSet.mem_ofList, positions,
    List.mem_append, List.mem_flatMap]

theorem gatherNames_eq (ax : Axiom) : ax.gatherNames = ax.names := by
  apply SortedSet.ext
  intro n
  rw [gatherNames, ClassExpression.mem_foldl_gatherNames fun o _ found =>
      ClassExpression.mem_gatherNames, names, SortedSet.mem_ofList, SortedSet.mem_ofList,
    ClassExpression.mem_filterMap_name?, mem_positions_iff, Option.mem_toList]
  simp

theorem meetsComplement_eq (ax : Axiom) : ax.meetsComplement = ax.hasComplement := by
  have hDefined : (ax.definedClass?.map ClassExpression.named).toList.any
      ClassExpression.isComplement = false := by
    cases ax.definedClass? <;> rfl
  rw [meetsComplement, hasComplement, positions, List.any_append, hDefined, Bool.false_or,
    List.any_flatMap, funext ClassExpression.meetsComplement_eq]
  rfl

end Axiom

/-! ## Trees -/

namespace Arena

/-- The class expressions at the nodes of the tree, in the order of reading. -/
def classes (a : Arena) : Except Fault (List ClassExpression) :=
  return (← a.addressed).toList.filterMap fun (_, label) => label.phrase.class?

/-- The nodes of an encoding hold the class expressions at the positions of the phrase. -/
theorem classes_ofPhrase (p : Phrase) (position : Option Position) :
    ∃ a, ofPhrase p position = .ok a ∧ a.classes = .ok p.positions := by
  obtain ⟨t, a, hOk, hMap, hRep⟩ := ofPhrase_represents p position
  refine ⟨a, hOk, ?_⟩
  have hLabels : t.toList.map Prod.snd = (p.encode position).toList := by
    rw [← hMap, Tree.toList, Tree.toList, List.map_cons, Tree.below_map, Forest.toList_map]
    rfl
  have hNodes : t.toList.filterMap (fun x => x.2.phrase.class?) = p.positions := by
    calc t.toList.filterMap (fun x => x.2.phrase.class?)
        = (t.toList.map Prod.snd).filterMap (fun l => l.phrase.class?) := by
          rw [List.filterMap_map]
          rfl
      _ = p.classNodes := by rw [hLabels]; rfl
      _ = p.positions := p.classNodes_eq_positions
  rw [classes, hRep.addressed]
  exact congrArg Except.ok hNodes

/-- The class expressions at the nodes of the tree of an axiom are those that a walk collects, and
those that are nested inside the axiom. The atomic ones bear the names that a walk collects, and
there is a complement among them exactly when a walk meets one. The same holds of class
expressions. -/
theorem traversals_agree :
    (∀ ax : Axiom, ∃ a nodes, ofPhrase (.statement ax) none = .ok a ∧ a.classes = .ok nodes ∧
      SortedSet.ofList nodes = ax.nested ∧ ax.gather = ax.nested ∧
      SortedSet.ofList (nodes.filterMap ClassExpression.name?) = ax.names ∧
      ax.gatherNames = ax.names ∧
      nodes.any ClassExpression.isComplement = ax.hasComplement ∧
      ax.meetsComplement = ax.hasComplement) ∧
    ∀ e : ClassExpression, ∃ a nodes, ofPhrase (.ofClass e) none = .ok a ∧ a.classes = .ok nodes ∧
      SortedSet.ofList nodes = e.nested ∧ e.gather ∅ = e.nested ∧
      SortedSet.ofList (nodes.filterMap ClassExpression.name?) = e.names ∧
      e.gatherNames ∅ = e.names ∧
      nodes.any ClassExpression.isComplement = e.hasComplement ∧
      e.meetsComplement = e.hasComplement := by
  constructor
  · intro ax
    obtain ⟨a, hOk, hNodes⟩ := classes_ofPhrase (.statement ax) none
    exact ⟨a, ax.positions, hOk, hNodes, rfl, ax.gather_eq, rfl, ax.gatherNames_eq, rfl,
      ax.meetsComplement_eq⟩
  · intro e
    obtain ⟨a, hOk, hNodes⟩ := classes_ofPhrase (.ofClass e) none
    exact ⟨a, e.positions, hOk, hNodes, rfl, e.gather_empty, rfl, e.gatherNames_empty, rfl,
      e.meetsComplement_eq⟩

end Arena

end OntoFold
