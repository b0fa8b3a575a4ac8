import Mathlib.Data.List.Nodup
import OntoFold.Proofs.Codec.Assembly
import OntoFold.Proofs.Rewriting.Terms

/-!
# Rewriting axioms and labels

Rewritings of class expressions reach the classes of axioms and the phrases of labels. A class
in the position of a defined class is replaced by a name only; what stands at other positions
is rewritten as an expression.

* `Phrase.mem_parts_rewriteBelow`: the parts of a rewritten phrase are the rewritten parts.
* `Phrase.assemble_rewritten`: putting rewritten parts together gives the rewritten phrase.
-/

namespace OntoFold

open Label (bare)

variable (σ : ClassExpression → Option ClassExpression)

/-! ## Axioms -/

namespace Axiom

/-- The name that takes the place of a defined class: a class is defined by its name, so a
replacement that is not a name does not count. -/
def rewriteDefined (defined : Iri) : Iri :=
  ((σ (.named defined)).bind ClassExpression.name?).getD defined

/-- The axiom with its classes rewritten. -/
def rewrite : Axiom → Axiom
  | .subClassOf sub super => .subClassOf (sub.rewrite σ) (super.rewrite σ)
  | .equivalent operands => equate (operands.map (ClassExpression.rewrite σ))
  | .disjoint operands => separate (operands.map (ClassExpression.rewrite σ))
  | .disjointUnion defined disjuncts =>
    partition (rewriteDefined σ defined) (disjuncts.map (ClassExpression.rewrite σ))

end Axiom

/-! ## Labels -/

theorem Phrase.class?_eq_some {p : Phrase} {e : ClassExpression} :
    p.class? = some e ↔ p = .ofClass e := by
  constructor
  · intro h
    obtain ⟨t, hTerm, hExpression⟩ := Option.bind_eq_some_iff.1 h
    cases p <;> cases hTerm
    cases t <;> cases hExpression
    rfl
  · rintro rfl
    rfl

/-- The phrase with what is below its root rewritten. -/
def Phrase.rewriteBelow : Phrase → Phrase
  | .statement ax => .statement (ax.rewrite σ)
  | .term (.classExpression e) => .ofClass (e.mapOperands (ClassExpression.rewrite σ))
  | p => p

namespace Label

/-- The replacement of the class expression that a label holds, if it has one. -/
def replacement? (l : Label) : Option ClassExpression :=
  l.phrase.class?.bind fun e =>
    if l.position = some .definedClass then (σ e).filter ClassExpression.isNamed else σ e

/-- The label with its phrase rewritten. -/
def rewrite (l : Label) : Label :=
  { l with phrase := ((l.replacement? σ).map Phrase.ofClass).getD (l.phrase.rewriteBelow σ) }

variable {σ} {l : Label}

theorem rewrite_of_eq_some {r : ClassExpression} (h : l.replacement? σ = some r) :
    l.rewrite σ = ⟨.ofClass r, l.position⟩ := by
  rw [rewrite, h]
  rfl

theorem rewrite_of_eq_none (h : l.replacement? σ = none) :
    l.rewrite σ = ⟨l.phrase.rewriteBelow σ, l.position⟩ := by
  rw [rewrite, h]
  rfl

theorem replacement?_eq_some {r : ClassExpression} (h : l.replacement? σ = some r) :
    ∃ e, l.phrase = .ofClass e ∧ σ e = some r := by
  obtain ⟨e, hClass, hr⟩ := Option.bind_eq_some_iff.1 h
  refine ⟨e, Phrase.class?_eq_some.1 hClass, ?_⟩
  split at hr
  · exact (Option.filter_eq_some_iff.1 hr).1
  · exact hr

/-- A class expression is rewritten where the position leaves its replacement alone. -/
theorem rewrite_of_replacement?_eq {e : ClassExpression} {position : Option Position}
    (h : replacement? σ ⟨.ofClass e, position⟩ = σ e) :
    rewrite σ ⟨.ofClass e, position⟩ = ⟨.ofClass (e.rewrite σ), position⟩ := by
  rw [rewrite, h, ClassExpression.rewrite_eq]
  cases σ e <;> rfl

/-- Away from the position of a defined class, a class expression is rewritten. -/
theorem rewrite_ofClass {e : ClassExpression} {position : Option Position}
    (h : position ≠ some .definedClass) :
    rewrite σ ⟨.ofClass e, position⟩ = ⟨.ofClass (e.rewrite σ), position⟩ :=
  rewrite_of_replacement?_eq (if_neg h)

theorem rewrite_bare_ofClass (e : ClassExpression) :
    rewrite σ (bare (.ofClass e)) = bare (.ofClass (e.rewrite σ)) :=
  rewrite_ofClass (by simp)

theorem rewrite_definedClass (defined : Iri) :
    rewrite σ ⟨.ofClass (.named defined), some .definedClass⟩ =
      ⟨.ofClass (.named (Axiom.rewriteDefined σ defined)), some .definedClass⟩ := by
  have hReplacement : replacement? σ ⟨.ofClass (.named defined), some .definedClass⟩ =
      (σ (.named defined)).filter ClassExpression.isNamed := by
    simp [replacement?, Phrase.class?, Phrase.term?, Term.classExpression?]
  rw [rewrite, hReplacement, Axiom.rewriteDefined]
  cases σ (.named defined) with
  | none => rfl
  | some r => cases r <;> rfl

end Label

/-! ## Parts of rewritten phrases -/

namespace Phrase

variable {σ} {p : Phrase} {c d : List Label}

theorem isSetValued_rewriteBelow (p : Phrase) :
    (p.rewriteBelow σ).isSetValued = p.isSetValued := by
  match p with
  | .statement ax => cases ax <;> rfl
  | .term (.classExpression e) => cases e <;> rfl
  | .term (.objectProperty _) => rfl
  | .term (.dataProperty _) => rfl
  | .term (.individual _) => rfl
  | .term (.literal _) => rfl
  | .term (.dataRange _) => rfl
  | .term (.facet _) => rfl
  | .count _ => rfl
  | .chain _ => rfl

theorem canonical_rewriteBelow (hσ : ∀ e r, σ e = some r → r.Canonical) (hp : p.Canonical) :
    (p.rewriteBelow σ).Canonical := by
  -- The operands of an axiom are collected into a set.
  have hAscend : ∀ es : List ClassExpression, ClassExpression.allCanonical es = true →
      (decide (Ascending (ascend (es.map (ClassExpression.rewrite σ)))) &&
        ClassExpression.allCanonical (ascend (es.map (ClassExpression.rewrite σ)))) = true := by
    intro es hes
    refine ClassExpression.canonical_ascend fun x hx => ?_
    obtain ⟨e, he, rfl⟩ := List.mem_map.1 hx
    exact ClassExpression.canonical_rewrite hσ (ClassExpression.allCanonical_iff.1 hes e he)
  match p with
  | .statement (.subClassOf sub super) =>
    obtain ⟨hSub, hSuper⟩ := Bool.and_eq_true_iff.1 hp
    exact Bool.and_eq_true_iff.2 ⟨ClassExpression.canonical_rewrite hσ hSub,
      ClassExpression.canonical_rewrite hσ hSuper⟩
  | .statement (.equivalent operands) =>
    exact hAscend operands (Bool.and_eq_true_iff.1 hp).2
  | .statement (.disjoint operands) =>
    exact hAscend operands (Bool.and_eq_true_iff.1 hp).2
  | .statement (.disjointUnion defined disjuncts) =>
    exact hAscend disjuncts (Bool.and_eq_true_iff.1 hp).2
  | .term (.classExpression e) =>
    exact ClassExpression.canonical_mapOperands hp fun o ho =>
      ClassExpression.canonical_rewrite hσ (ClassExpression.canonical_of_operand hp ho)
  | .term (.objectProperty _) => exact hp
  | .term (.dataProperty _) => exact hp
  | .term (.individual _) => exact hp
  | .term (.literal _) => exact hp
  | .term (.dataRange _) => exact hp
  | .term (.facet _) => exact hp
  | .count _ => exact hp
  | .chain _ => exact hp

theorem canonical_rewrite {l : Label} (hσ : ∀ e r, σ e = some r → r.Canonical)
    (hl : l.phrase.Canonical) : (l.rewrite σ).phrase.Canonical := by
  cases h : l.replacement? σ with
  | some r =>
    obtain ⟨e, -, hr⟩ := Label.replacement?_eq_some h
    rw [Label.rewrite_of_eq_some h]
    exact hσ e r hr
  | none =>
    rw [Label.rewrite_of_eq_none h]
    exact canonical_rewriteBelow hσ hl

/-- Labels without class expressions are left alone. -/
theorem map_rewrite_map {α : Type} {f : α → Label} (h : ∀ a, (f a).rewrite σ = f a)
    (as : List α) : (as.map f).map (Label.rewrite σ) = as.map f := by
  rw [List.map_map]
  exact List.map_congr_left fun a _ => h a

/-- Where the order of the parts counts, they are rewritten one by one. -/
theorem parts_rewriteBelow (h : p.isSetValued = false) :
    (p.rewriteBelow σ).parts = p.parts.map (Label.rewrite σ) := by
  match p with
  | .statement (.subClassOf sub super) =>
    simp [rewriteBelow, parts, Axiom.rewrite, Axiom.parts, Label.rewrite_ofClass]
  | .term (.classExpression e) =>
    cases e with
    | combined connective operands => cases h
    | oneOf individuals => cases h
    | complement operand => exact congrArg (fun l => [l]) (Label.rewrite_bare_ofClass operand).symm
    | quantified quantifier property filler =>
      exact congrArg (fun l => [bare property.phrase, l]) (Label.rewrite_bare_ofClass filler).symm
    | cardinality bound count property filler =>
      cases filler with
      | none => rfl
      | some filler =>
        exact congrArg (fun l => [bare (.count count), bare property.phrase, l])
          (Label.rewrite_bare_ofClass filler).symm
    | dataCardinality bound count property range => cases range <;> rfl
    | _ => rfl
  | .term (.objectProperty property) => cases property <;> rfl
  | .term (.dataRange range) => cases range <;> first | rfl | cases h
  | .chain properties => exact (map_rewrite_map (fun _ => rfl) properties).symm
  | .term (.facet _) => rfl
  | .term (.dataProperty _) => rfl
  | .term (.individual _) => rfl
  | .term (.literal _) => rfl
  | .count _ => rfl

theorem mem_parts_ascend {l : Label} {es : List ClassExpression} :
    (l ∈ (ascend (es.map (ClassExpression.rewrite σ))).map fun e => bare (.ofClass e)) ↔
      ∃ m ∈ es.map fun e => bare (.ofClass e), m.rewrite σ = l := by
  simp only [List.mem_map, mem_ascend]
  constructor
  · rintro ⟨x, ⟨e, he, rfl⟩, rfl⟩
    exact ⟨_, ⟨e, he, rfl⟩, Label.rewrite_bare_ofClass e⟩
  · rintro ⟨m, ⟨e, he, rfl⟩, rfl⟩
    exact ⟨_, ⟨e, he, rfl⟩, (Label.rewrite_bare_ofClass e).symm⟩

/-- The parts of a rewritten phrase are the rewritten parts. -/
theorem mem_parts_rewriteBelow {l : Label} :
    l ∈ (p.rewriteBelow σ).parts ↔ ∃ m ∈ p.parts, m.rewrite σ = l := by
  cases hSet : p.isSetValued with
  | false => rw [parts_rewriteBelow hSet, List.mem_map]
  | true =>
    match p with
    | .statement (.equivalent operands) => exact mem_parts_ascend
    | .statement (.disjoint operands) => exact mem_parts_ascend
    | .statement (.disjointUnion defined disjuncts) =>
      have hDefined := Label.rewrite_definedClass (σ := σ) defined
      simp only [rewriteBelow, parts, Axiom.rewrite, Axiom.partition, Axiom.parts, List.mem_cons,
        mem_parts_ascend, exists_eq_or_imp, hDefined, eq_comm]
    | .term (.classExpression (.combined connective operands)) => exact mem_parts_ascend
    | .term (.classExpression (.oneOf individuals)) =>
      rw [← List.mem_map]
      exact iff_of_eq (congrArg (l ∈ ·) (map_rewrite_map (fun _ => rfl) individuals).symm)
    | .term (.dataRange (.oneOf values)) =>
      rw [← List.mem_map]
      exact iff_of_eq (congrArg (l ∈ ·) (map_rewrite_map (fun _ => rfl) values).symm)
    | .term (.dataRange (.combined connective ranges)) =>
      rw [← List.mem_map]
      exact iff_of_eq (congrArg (l ∈ ·) (map_rewrite_map (fun _ => rfl) ranges).symm)
    | .term (.dataRange (.restriction base facets)) =>
      rw [← List.mem_map]
      exact iff_of_eq (congrArg (l ∈ bare _ :: ·) (map_rewrite_map (fun _ => rfl) facets).symm)

theorem map_nodup_of_ascending {α : Type} [Keyed α] {f : α → Label} (hf : Function.Injective f)
    {as : List α} (h : Ascending as) : (as.map f).Nodup := h.nodup.map hf

/-- The parts of a set of operands differ from each other. -/
theorem parts_nodup (hp : p.Canonical) (h : p.isSetValued = true) : p.parts.Nodup := by
  have hClass : Function.Injective fun e => bare (.ofClass e) := fun _ _ hEq => by simpa using hEq
  match p with
  | .statement (.equivalent operands) =>
    exact map_nodup_of_ascending hClass (of_decide_eq_true (Bool.and_eq_true_iff.1 hp).1)
  | .statement (.disjoint operands) =>
    exact map_nodup_of_ascending hClass (of_decide_eq_true (Bool.and_eq_true_iff.1 hp).1)
  | .statement (.disjointUnion defined disjuncts) =>
    refine List.nodup_cons.2 ⟨fun hMem => ?_,
      map_nodup_of_ascending hClass (of_decide_eq_true (Bool.and_eq_true_iff.1 hp).1)⟩
    obtain ⟨e, -, hEq⟩ := List.mem_map.1 hMem
    cases hEq
  | .term (.classExpression (.combined connective operands)) =>
    exact map_nodup_of_ascending hClass (of_decide_eq_true (Bool.and_eq_true_iff.1 hp).1)
  | .term (.classExpression (.oneOf individuals)) =>
    exact map_nodup_of_ascending (fun _ _ hEq => by simpa using hEq) (of_decide_eq_true hp)
  | .term (.dataRange (.oneOf values)) =>
    exact map_nodup_of_ascending (fun _ _ hEq => by simpa using hEq) (of_decide_eq_true hp)
  | .term (.dataRange (.combined connective ranges)) =>
    exact map_nodup_of_ascending (fun _ _ hEq => by simpa [DataRange.phrase] using hEq)
      (of_decide_eq_true (Bool.and_eq_true_iff.1 hp).1)
  | .term (.dataRange (.restriction base facets)) =>
    refine List.nodup_cons.2 ⟨fun hMem => ?_,
      map_nodup_of_ascending (fun _ _ hEq => by simpa using hEq) (of_decide_eq_true hp)⟩
    obtain ⟨f, -, hEq⟩ := List.mem_map.1 hMem
    cases hEq

/-! ## Putting rewritten parts together -/

/-- What is put together from the parts of the rewritten phrase does not depend on what the
phrase held before. -/
theorem assemble_rewriteBelow (h : (p.rewriteBelow σ).MadeOf c) :
    p.assemble c = (p.rewriteBelow σ).assemble c := by
  match p with
  | .statement (.subClassOf sub super) =>
    obtain rfl : c = _ := h
    rfl
  | .statement (.equivalent operands) => rfl
  | .statement (.disjoint operands) => rfl
  | .statement (.disjointUnion defined disjuncts) =>
    have hDefined := classAt?_definedClass h
    rw [rewriteBelow, assemble, assemble, Axiom.rewrite, Axiom.partition, Axiom.assemble,
      Axiom.assemble, hDefined]
    rfl
  | .term (.classExpression e) =>
    cases e with
    | combined connective operands => rfl
    | cardinality bound count property filler =>
      obtain rfl : c = _ := h
      cases filler <;> rfl
    | complement operand =>
      obtain rfl : c = _ := h
      rfl
    | quantified quantifier property filler =>
      obtain rfl : c = _ := h
      rfl
    | _ => rfl
  | .term (.objectProperty _) => rfl
  | .term (.dataProperty _) => rfl
  | .term (.individual _) => rfl
  | .term (.literal _) => rfl
  | .term (.dataRange _) => rfl
  | .term (.facet _) => rfl
  | .count _ => rfl
  | .chain _ => rfl

/-- The labels of children after those that repeat another one are merged, where the children
form a set. -/
def Merges (p : Phrase) (c d : List Label) : Prop :=
  if p.isSetValued then d.Nodup ∧ ∀ l, l ∈ d ↔ l ∈ c else d = c

/-- Rewritten parts, once merged, are the parts of the rewritten phrase. -/
theorem MadeOf.rewriteBelow (hσ : ∀ e r, σ e = some r → r.Canonical) (hp : p.Canonical)
    (hc : p.MadeOf c) (hd : p.Merges (c.map (Label.rewrite σ)) d) :
    (p.rewriteBelow σ).MadeOf d := by
  unfold Merges at hd
  unfold MadeOf at hc ⊢
  rw [isSetValued_rewriteBelow]
  cases hSet : p.isSetValued with
  | false =>
    rw [hSet, if_neg Bool.false_ne_true] at hc hd
    rw [if_neg Bool.false_ne_true, hd, hc, parts_rewriteBelow hSet]
  | true =>
    rw [hSet, if_pos rfl] at hc hd
    rw [if_pos rfl]
    have hNodup : (p.rewriteBelow σ).parts.Nodup :=
      parts_nodup (canonical_rewriteBelow hσ hp) ((isSetValued_rewriteBelow p).trans hSet)
    refine (List.perm_ext_iff_of_nodup hd.1 hNodup).2 fun l => ?_
    rw [hd.2, mem_parts_rewriteBelow, List.mem_map]
    exact exists_congr fun m => and_congr_left fun _ => hc.mem_iff

/-- Putting rewritten parts together gives the rewritten phrase. -/
theorem assemble_rewritten (hσ : ∀ e r, σ e = some r → r.Canonical) (hp : p.Canonical)
    (hc : p.MadeOf c) (hd : p.Merges (c.map (Label.rewrite σ)) d) :
    p.assemble d = p.rewriteBelow σ := by
  have hMade := hc.rewriteBelow hσ hp hd
  rw [assemble_rewriteBelow hMade, assemble_eq_self (canonical_rewriteBelow hσ hp) hMade]

/-- A phrase whose parts are left alone is left alone. -/
theorem rewriteBelow_eq_self (hσ : ∀ e r, σ e = some r → r.Canonical) (hp : p.Canonical)
    (hc : p.MadeOf c) (h : ∀ l ∈ c, l.rewrite σ = l) : p.rewriteBelow σ = p := by
  have hSame : c.map (Label.rewrite σ) = c := (List.map_congr_left h).trans (List.map_id c)
  have hMerges : p.Merges (c.map (Label.rewrite σ)) c := by
    rw [hSame]
    unfold Merges
    split
    · next hSet => exact ⟨hc.perm.nodup_iff.2 (parts_nodup hp hSet), fun _ => Iff.rfl⟩
    · rfl
  rw [← assemble_rewritten hσ hp hc hMerges, assemble_eq_self hp hc]

end Phrase

end OntoFold
