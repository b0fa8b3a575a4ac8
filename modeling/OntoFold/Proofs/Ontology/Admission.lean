import OntoFold.Ontology.Basic
import OntoFold.Proofs.Codec.ChildCounts
import OntoFold.Proofs.Journal

/-!
# Which axioms an ontology admits

An axiom passes the check on entry when every node of its encoding has the children it needs. An
ontology that axioms are added to holds those of them that pass, in whatever order they come and
however often; it stays as it is when one is refused.

* `Ontology.mem_add`: what an ontology holds after one axiom was added.
* `Ontology.mem_addAll`: what it holds after some axioms were added.
* `Ontology.admits_supplied`: axioms that pass the check, and ontologies that hold exactly these.
-/

namespace OntoFold

/-- Every node of the encoding of the axiom has the children it needs. -/
def Axiom.Supplied (ax : Axiom) : Prop :=
  ∃ a, Arena.ofPhrase (.statement ax) none = .ok a ∧ a.Supplied

/-- An axiom passes the check when every node of its encoding has the children it needs. -/
theorem Axiom.wellFormed_iff_supplied (ax : Axiom) : ax.WellFormed ↔ ax.Supplied := by
  obtain ⟨a, hOk, hSupplied⟩ := Arena.supplied_ofPhrase (.statement ax) none
  rw [Supplied, hOk]
  simp only [Except.ok.injEq, exists_eq_left', hSupplied]
  rfl

namespace Ontology

variable {o : Ontology} {ax x : Axiom} {flaw : Flaw}

/-! ## One axiom -/

theorem insert_of_wellFormed (o : Ontology) (h : ax.WellFormed) :
    ∃ p, o.insert ax = .ok (decide (ax ∉ o.axioms), p) ∧
      ∀ x, x ∈ p.axioms ↔ x = ax ∨ x ∈ o.axioms := by
  unfold insert
  split
  · next hFlaw =>
    rw [Axiom.WellFormed, hFlaw] at h
    cases h
  · exact ⟨_, rfl, fun _ => SortedSet.mem_insert⟩

theorem insert_of_flaw (o : Ontology) (h : ax.flaw? = some flaw) :
    o.insert ax = .error flaw := by
  unfold insert
  split
  · next hFlaw => rw [Option.some.inj (hFlaw.symm.trans h)]
  · next hNone =>
    rw [hNone] at h
    cases h

/-- What is answered when an axiom is added, and the ontology from then on: a refusal leaves it as
it is. -/
def add (o : Ontology) (ax : Axiom) : Except Flaw Bool × Ontology :=
  match o.insert ax with
  | .ok (isNew, p) => (.ok isNew, p)
  | .error flaw => (.error flaw, o)

theorem add_of_wellFormed (o : Ontology) (h : ax.WellFormed) :
    ∃ p, o.add ax = (.ok (decide (ax ∉ o.axioms)), p) ∧
      ∀ x, x ∈ p.axioms ↔ x = ax ∨ x ∈ o.axioms := by
  obtain ⟨p, hInsert, hMem⟩ := o.insert_of_wellFormed h
  exact ⟨p, by rw [add, hInsert], hMem⟩

theorem add_of_not_wellFormed (o : Ontology) (h : ¬ ax.WellFormed) :
    ∃ flaw, ax.flaw? = some flaw ∧ o.add ax = (.error flaw, o) := by
  obtain ⟨flaw, hFlaw⟩ := Option.ne_none_iff_exists'.1 h
  exact ⟨flaw, hFlaw, by rw [add, o.insert_of_flaw hFlaw]⟩

/-- Adding an axiom adds it when it is well formed, and nothing otherwise. -/
theorem mem_add : x ∈ (o.add ax).2.axioms ↔ x ∈ o.axioms ∨ x = ax ∧ ax.WellFormed := by
  by_cases h : ax.WellFormed
  · obtain ⟨p, hAdd, hMem⟩ := o.add_of_wellFormed h
    rw [hAdd, hMem, or_comm, and_iff_left h]
  · obtain ⟨flaw, -, hAdd⟩ := o.add_of_not_wellFormed h
    rw [hAdd, or_iff_left fun hBoth => h hBoth.2]

/-! ## One axiom after another -/

/-- The ontology after some axioms were added to it. -/
def addAll (axioms : List Axiom) (o : Ontology) : Ontology :=
  axioms.foldl (fun o ax => (o.add ax).2) o

/-- Of the axioms that are added, the well-formed ones are kept. -/
theorem mem_addAll {axioms : List Axiom} :
    x ∈ (addAll axioms o).axioms ↔ x ∈ o.axioms ∨ x ∈ axioms ∧ x.WellFormed := by
  induction axioms generalizing o with
  | nil => simp [addAll]
  | cons ax axioms ih =>
    rw [addAll, List.foldl_cons, ← addAll, ih, mem_add, List.mem_cons, or_assoc, or_and_right]
    refine or_congr_right (or_congr_left (and_congr_right ?_))
    rintro rfl
    rfl

/-- Loading axioms is adding them one after another. -/
theorem ofList_result (axioms : List Axiom) : (ofList axioms).result = .ok (addAll axioms ∅) := by
  rw [ofList, Run.result_foldlM]
  generalize (∅ : Ontology) = o
  induction axioms generalizing o with
  | nil => rfl
  | cons ax axioms ih =>
    rw [List.foldlM_cons, addAll, List.foldl_cons, ← addAll, ← ih, add]
    cases o.insert ax with
    | ok outcome => rfl
    | error flaw => rfl

/-- What an ontology holds once some axioms were added to it, and what the next one meets. -/
structure Admits (axioms : List Axiom) (o : Ontology) : Prop where
  holds : ∀ ax, ax ∈ o.axioms ↔ ax ∈ axioms ∧ ax.Supplied
  accepts : ∀ ax : Axiom, ax.Supplied → ∃ p, o.add ax = (.ok (decide (ax ∉ o.axioms)), p)
  refuses : ∀ ax : Axiom, ¬ ax.Supplied → ∃ flaw, ax.flaw? = some flaw ∧ o.add ax = (.error flaw, o)

/-- An axiom passes the check exactly when every node of its encoding has the children it needs.
Whatever axioms are added to an empty ontology, it then holds those of them that pass and no
others; adding one more tells whether it is new when it passes, and changes nothing otherwise.
Loading the axioms gives the same ontology. -/
theorem admits_supplied :
    (∀ ax : Axiom, ax.WellFormed ↔ ax.Supplied) ∧
    ∀ axioms : List Axiom, Admits axioms (addAll axioms ∅) ∧
      (ofList axioms).result = .ok (addAll axioms ∅) := by
  refine ⟨Axiom.wellFormed_iff_supplied, fun axioms =>
    ⟨⟨fun ax => ?_, fun ax h => ?_, fun ax h => ?_⟩, ofList_result axioms⟩⟩
  · rw [mem_addAll, ← ax.wellFormed_iff_supplied]
    exact or_iff_right SortedSet.not_mem_empty
  · obtain ⟨p, hAdd, -⟩ := (addAll axioms ∅).add_of_wellFormed (ax.wellFormed_iff_supplied.2 h)
    exact ⟨p, hAdd⟩
  · exact (addAll axioms ∅).add_of_not_wellFormed fun hCheck =>
      h (ax.wellFormed_iff_supplied.1 hCheck)

end Ontology

end OntoFold
