import Mathlib.Data.List.Perm.Basic
import OntoFold.Proofs.Rewriting.Labels

/-!
# Putting changed parts together

When the parts of a phrase give way to parts of the same kind, what is put together from the new
parts has exactly these parts, as long as no compound term stands where only a name can stand.
Otherwise `assemble` falls back on what the phrase held before, and the phrase has other parts.

* `Phrase.assemble_assemble`: putting the same parts together once more changes nothing.
* `Label.Follows`: what may take the place of a part.
* `Phrase.MadeOf.reassembled`: a phrase put together from labels that follow its parts is made of
  them.
-/

namespace OntoFold

open Label (bare)

/-- Neither a compound class or range nor an inverse property. -/
def Term.isAtomic : Term → Bool
  | .classExpression e => e.isNamed
  | .objectProperty (.inverse _) => false
  | .dataRange (.datatype _) => true
  | .dataRange _ => false
  | _ => true

namespace Phrase

def isAtomic (p : Phrase) : Bool := p.term?.all Term.isAtomic

/-- Only atomic terms can stand below: a named property below an inverse one, a datatype and
facets below a restricted datatype. -/
def isNarrow : Phrase → Bool
  | .term (.objectProperty (.inverse _)) => true
  | .term (.dataRange (.restriction ..)) => true
  | _ => false

/-- The phrases can stand in the same kind of position. -/
def SameKind : Phrase → Phrase → Prop
  | .statement _, .statement _ => True
  | .term t, .term u => t.sameCategory u = true
  | .count n, .count m => n = m
  | .chain _, .chain _ => True
  | _, _ => False

end Phrase

/-! ## Putting parts together twice -/

/-- What the parts do not supply is taken from the phrase, which keeps it. -/
theorem getD_getD {α : Type} (x : Option α) (a : α) : x.getD (x.getD a) = x.getD a := by
  cases x <;> rfl

section Assemble

variable (d : List Label)

theorem DataRange.assemble_assemble (range : DataRange) :
    (range.assemble d).assemble d = range.assemble d := by
  cases range with
  | complement range => simp only [assemble, getD_getD]
  | restriction base facets => simp only [assemble, restrict, getD_getD]
  | _ => rfl

theorem ClassExpression.assemble_assemble (e : ClassExpression) :
    (e.assemble d).assemble d = e.assemble d := by
  cases e with
  | named iri => rfl
  | combined connective operands => rfl
  | oneOf individuals => rfl
  | _ => simp only [assemble, getD_getD]

theorem Term.assemble_assemble (t : Term) : (t.assemble d).assemble d = t.assemble d := by
  cases t with
  | classExpression e => rw [assemble, assemble, ClassExpression.assemble_assemble]
  | dataRange range => rw [assemble, assemble, DataRange.assemble_assemble]
  | objectProperty property =>
    cases property with
    | named iri => rfl
    | inverse iri => simp only [assemble, getD_getD]
  | facet f => simp only [assemble, getD_getD]
  | _ => rfl

theorem Axiom.assemble_assemble (ax : Axiom) : (ax.assemble d).assemble d = ax.assemble d := by
  cases ax with
  | subClassOf sub super => simp only [assemble, getD_getD]
  | disjointUnion defined disjuncts => simp only [assemble, partition, getD_getD]
  | _ => rfl

/-- Putting the same parts together once more changes nothing. -/
theorem Phrase.assemble_assemble (p : Phrase) : (p.assemble d).assemble d = p.assemble d := by
  cases p with
  | statement ax => rw [assemble, assemble, Axiom.assemble_assemble]
  | term t => rw [assemble, assemble, Term.assemble_assemble]
  | count n => rfl
  | chain properties => rfl

/-- What is put together from parts is of the same kind as before. -/
theorem Phrase.sameKind_assemble (p : Phrase) : p.SameKind (p.assemble d) := by
  cases p with
  | statement ax => trivial
  | term t =>
    cases t with
    | objectProperty property => cases property <;> rfl
    | _ => rfl
  | count n => rfl
  | chain properties => trivial

theorem Phrase.isAtomic_assemble (p : Phrase) : (p.assemble d).isAtomic = p.isAtomic := by
  cases p with
  | term t =>
    cases t with
    | classExpression e => cases e <;> rfl
    | objectProperty property => cases property <;> rfl
    | dataRange range => cases range <;> rfl
    | _ => rfl
  | _ => rfl

end Assemble

/-! ## Changed labels -/

/-- What may take the place of a label: something of the same kind at the same position. Where
only an atomic term can stand, the place of one is taken by another one. -/
structure Label.Follows (narrow : Bool) (l m : Label) : Prop where
  position : m.position = l.position
  kind : l.phrase.SameKind m.phrase
  atomic : narrow = true ∨ l.position = some .definedClass →
    l.phrase.isAtomic = true → m.phrase.isAtomic = true

namespace Label

variable {narrow : Bool} {m : Label} {position : Option Position}

theorem follows_refl (narrow : Bool) (l : Label) : l.Follows narrow l where
  position := rfl
  kind := by
    obtain ⟨p, position⟩ := l
    cases p with
    | term t => cases t <;> rfl
    | count n => rfl
    | _ => trivial
  atomic _ h := h

theorem follows_assemble (narrow : Bool) (l : Label) (d : List Label) :
    l.Follows narrow { l with phrase := l.phrase.assemble d } where
  position := rfl
  kind := l.phrase.sameKind_assemble d
  atomic _ h := (l.phrase.isAtomic_assemble d).trans h

namespace Follows

/-- A term is followed by a term of the same category. -/
theorem term {t : Term} (h : Follows narrow ⟨.term t, position⟩ m) :
    match t with
    | .classExpression _ => ∃ e, m = ⟨.ofClass e, position⟩
    | .objectProperty _ => ∃ r : ObjectProperty, m = ⟨r.phrase, position⟩
    | .dataProperty _ => ∃ r, m = ⟨.term (.dataProperty r), position⟩
    | .individual _ => ∃ i, m = ⟨.term (.individual i), position⟩
    | .literal _ => ∃ v, m = ⟨.term (.literal v), position⟩
    | .dataRange _ => ∃ range : DataRange, m = ⟨range.phrase, position⟩
    | .facet _ => ∃ f, m = ⟨.term (.facet f), position⟩ := by
  obtain ⟨p, position'⟩ := m
  obtain rfl : position' = position := h.position
  have hKind := h.kind
  cases p with
  | term u => cases t <;> cases u <;> first | exact ⟨_, rfl⟩ | cases hKind
  | _ => exact absurd hKind id

theorem count {n : Nat} (h : Follows narrow (bare (.count n)) m) : m = bare (.count n) := by
  obtain ⟨p, position'⟩ := m
  obtain rfl : position' = none := h.position
  have hKind := h.kind
  cases p with
  | count k =>
    obtain rfl : n = k := hKind
    rfl
  | _ => exact absurd hKind id

/-- Below an inverse property a name is followed by a name. -/
theorem namedProperty {iri : Iri} (h : Follows true (bare (ObjectProperty.named iri).phrase) m) :
    ∃ iri', m = bare (ObjectProperty.named iri').phrase := by
  obtain ⟨r, rfl⟩ := h.term
  have hAtomic := h.atomic (Or.inl rfl) rfl
  cases r with
  | named iri' => exact ⟨iri', rfl⟩
  | inverse _ => cases hAtomic

/-- Below a restricted datatype a datatype is followed by a datatype. -/
theorem datatype {iri : Iri} (h : Follows true (bare (DataRange.datatype iri).phrase) m) :
    ∃ iri', m = bare (DataRange.datatype iri').phrase := by
  obtain ⟨range, rfl⟩ := h.term
  have hAtomic := h.atomic (Or.inl rfl) rfl
  cases range with
  | datatype iri' => exact ⟨iri', rfl⟩
  | _ => cases hAtomic

/-- The place of a defined class is taken by a name. -/
theorem definedClass {iri : Iri}
    (h : Follows narrow ⟨.ofClass (.named iri), some .definedClass⟩ m) :
    ∃ iri', m = ⟨.ofClass (.named iri'), some .definedClass⟩ := by
  obtain ⟨e, rfl⟩ := h.term
  have hAtomic := h.atomic (Or.inr rfl) rfl
  cases e with
  | named iri' => exact ⟨iri', rfl⟩
  | _ => cases hAtomic

/-- Labels that follow labels of one form are of that form. -/
theorem map {α : Type} {f : α → Label} (hf : ∀ a m, Follows narrow (f a) m → ∃ b, m = f b)
    {as : List α} {c : List Label} (h : List.Forall₂ (Follows narrow) (as.map f) c) :
    ∃ bs : List α, c = bs.map f := by
  induction as generalizing c with
  | nil =>
    obtain rfl := List.forall₂_nil_left_iff.1 h
    exact ⟨[], rfl⟩
  | cons a as ih =>
    obtain ⟨m, c, hHead, hTail, rfl⟩ := List.forall₂_cons_left_iff.1 h
    obtain ⟨b, rfl⟩ := hf a m hHead
    obtain ⟨bs, rfl⟩ := ih hTail
    exact ⟨b :: bs, rfl⟩

end Follows

end Label

/-! ## Phrases whose parts have changed -/

theorem forall₂_singleton_left {α β : Type} {R : α → β → Prop} {a : α} {ys : List β}
    (h : List.Forall₂ R [a] ys) : ∃ y, R a y ∧ ys = [y] := by
  obtain ⟨y, rest, hy, hNil, rfl⟩ := List.forall₂_cons_left_iff.1 h
  obtain rfl := List.forall₂_nil_left_iff.1 hNil
  exact ⟨y, hy, rfl⟩

theorem forall₂_pair_left {α β : Type} {R : α → β → Prop} {a b : α} {ys : List β}
    (h : List.Forall₂ R [a, b] ys) : ∃ y z, R a y ∧ R b z ∧ ys = [y, z] := by
  obtain ⟨y, rest, hy, hRest, rfl⟩ := List.forall₂_cons_left_iff.1 h
  obtain ⟨z, hz, rfl⟩ := forall₂_singleton_left hRest
  exact ⟨y, z, hy, hz, rfl⟩

/-- The second phrase is the first one with changed parts: putting together what it is made of
gives the same, whatever the first phrase held before. -/
structure Phrase.Rebuilt (p q : Phrase) (c : List Label) : Prop where
  canonical : q.Canonical
  isSetValued : q.isSetValued = p.isSetValued
  parts : if p.isSetValued then ∀ l, l ∈ q.parts ↔ l ∈ c else q.parts = c
  assemble : ∀ d, q.MadeOf d → p.assemble d = q.assemble d

/-- Where the order of the parts counts, they say what the new phrase is made of. -/
theorem Phrase.Rebuilt.ordered {p q : Phrase} (hq : q.Canonical)
    (hSet : q.isSetValued = p.isSetValued) (hOrder : p.isSetValued = false)
    (hAssemble : p.assemble q.parts = q.assemble q.parts) : p.Rebuilt q q.parts where
  canonical := hq
  isSetValued := hSet
  parts := by
    rw [hOrder]
    rfl
  assemble d hd := by
    rw [MadeOf, hSet, hOrder] at hd
    obtain rfl : d = q.parts := hd
    exact hAssemble

/-- What is put together from the parts of the new phrase is the new phrase. -/
theorem Phrase.Rebuilt.assembled {p q : Phrase} {c d : List Label} (h : p.Rebuilt q c)
    (hd : q.MadeOf d) : (p.assemble d).Canonical ∧ (p.assemble d).MadeOf d := by
  have hSame : p.assemble d = q := by
    rw [h.assemble d hd, assemble_eq_self h.canonical hd]
  rw [hSame]
  exact ⟨h.canonical, hd⟩

theorem mem_map_ascend {α : Type} [Keyed α] {f : α → Label} {as : List α} {l : Label} :
    l ∈ (ascend as).map f ↔ l ∈ as.map f := by
  simp only [List.mem_map, mem_ascend]

theorem mem_cons_map_ascend {α : Type} [Keyed α] {f : α → Label} {as : List α} {l m : Label} :
    l ∈ m :: (ascend as).map f ↔ l ∈ m :: as.map f := by
  simp only [List.mem_cons, mem_map_ascend]

section Rebuilt

variable {c : List Label}

theorem DataRange.exists_rebuilt (range : DataRange)
    (h : List.Forall₂ (Label.Follows range.phrase.isNarrow) range.parts c)
    (hCanonical : ∀ l ∈ c, l.phrase.Canonical) :
    ∃ range' : DataRange, range.phrase.Rebuilt range'.phrase c := by
  cases range with
  | datatype iri =>
    obtain rfl := List.forall₂_nil_left_iff.1 h
    exact ⟨.datatype iri, .ordered rfl rfl rfl rfl⟩
  | oneOf values =>
    obtain ⟨values', rfl⟩ := Label.Follows.map (fun _ _ h => h.term) h
    exact ⟨enumerate values', canonical_enumerate values', rfl, fun _ => mem_map_ascend,
      fun _ _ => rfl⟩
  | complement range =>
    obtain ⟨_, hRange, rfl⟩ := forall₂_singleton_left h
    obtain ⟨range', rfl⟩ := hRange.term
    exact ⟨.complement range', .ordered (hCanonical _ List.mem_cons_self) rfl rfl rfl⟩
  | combined connective ranges =>
    obtain ⟨ranges', rfl⟩ := Label.Follows.map (fun _ _ h => h.term) h
    refine ⟨combine connective ranges', canonical_combine fun range hMem => ?_, rfl,
      fun _ => mem_map_ascend, fun _ _ => rfl⟩
    exact hCanonical _ (List.mem_map_of_mem hMem)
  | restriction base facets =>
    obtain ⟨_, _, hBase, hFacets, rfl⟩ := List.forall₂_cons_left_iff.1 h
    obtain ⟨base', rfl⟩ := hBase.datatype
    obtain ⟨facets', rfl⟩ := Label.Follows.map (fun _ _ h => h.term) hFacets
    refine ⟨restrict base' facets', canonical_restrict base' facets', rfl,
      fun _ => mem_cons_map_ascend, fun d hd => ?_⟩
    rw [restrict, phrase, phrase, Phrase.assemble, Phrase.assemble, Term.assemble,
      Term.assemble, assemble, assemble, Phrase.datatype?_restriction hd]
    rfl

theorem ClassExpression.exists_rebuilt (e : ClassExpression)
    (h : List.Forall₂ (Label.Follows (Phrase.ofClass e).isNarrow) e.parts c)
    (hCanonical : ∀ l ∈ c, l.phrase.Canonical) :
    ∃ e' : ClassExpression, (Phrase.ofClass e).Rebuilt (.ofClass e') c := by
  -- The filler, if there is one, is the last part.
  have hLast : ∀ {l m : Label}, l ∈ [m, l] := List.mem_cons_of_mem _ List.mem_cons_self
  cases e with
  | named iri =>
    obtain rfl := List.forall₂_nil_left_iff.1 h
    exact ⟨.named iri, .ordered rfl rfl rfl rfl⟩
  | complement operand =>
    obtain ⟨_, hOperand, rfl⟩ := forall₂_singleton_left h
    obtain ⟨operand', rfl⟩ := hOperand.term
    exact ⟨.complement operand', .ordered (hCanonical _ List.mem_cons_self) rfl rfl rfl⟩
  | combined connective operands =>
    obtain ⟨operands', rfl⟩ := Label.Follows.map (fun _ _ h => h.term) h
    refine ⟨combine connective operands', canonical_combine fun e hMem => ?_, rfl,
      fun _ => mem_map_ascend, fun _ _ => rfl⟩
    exact hCanonical _ (List.mem_map_of_mem hMem)
  | oneOf individuals =>
    obtain ⟨individuals', rfl⟩ := Label.Follows.map (fun _ _ h => h.term) h
    exact ⟨enumerate individuals', canonical_enumerate individuals', rfl,
      fun _ => mem_map_ascend, fun _ _ => rfl⟩
  | quantified quantifier property filler =>
    obtain ⟨_, _, hProperty, hFiller, rfl⟩ := forall₂_pair_left h
    obtain ⟨property', rfl⟩ := hProperty.term
    obtain ⟨filler', rfl⟩ := hFiller.term
    exact ⟨.quantified quantifier property' filler', .ordered (hCanonical _ hLast) rfl rfl rfl⟩
  | hasValue property individual =>
    obtain ⟨_, _, hProperty, hIndividual, rfl⟩ := forall₂_pair_left h
    obtain ⟨property', rfl⟩ := hProperty.term
    obtain ⟨individual', rfl⟩ := hIndividual.term
    exact ⟨.hasValue property' individual', .ordered rfl rfl rfl rfl⟩
  | hasSelf property =>
    obtain ⟨_, hProperty, rfl⟩ := forall₂_singleton_left h
    obtain ⟨property', rfl⟩ := hProperty.term
    exact ⟨.hasSelf property', .ordered rfl rfl rfl rfl⟩
  | cardinality bound count property filler =>
    obtain ⟨_, _, hCount, hRest, rfl⟩ := List.forall₂_cons_left_iff.1 h
    obtain ⟨_, _, hProperty, hFiller, rfl⟩ := List.forall₂_cons_left_iff.1 hRest
    obtain rfl := hCount.count
    obtain ⟨property', rfl⟩ := hProperty.term
    cases filler with
    | none =>
      obtain rfl := List.forall₂_nil_left_iff.1 hFiller
      exact ⟨.cardinality bound count property' none, .ordered rfl rfl rfl rfl⟩
    | some filler =>
      obtain ⟨_, hFirst, rfl⟩ := forall₂_singleton_left hFiller
      obtain ⟨filler', rfl⟩ := hFirst.term
      exact ⟨.cardinality bound count property' (some filler'),
        .ordered (hCanonical _ (List.mem_cons_of_mem _ hLast)) rfl rfl rfl⟩
  | dataQuantified quantifier property range =>
    obtain ⟨_, _, hProperty, hRange, rfl⟩ := forall₂_pair_left h
    obtain ⟨property', rfl⟩ := hProperty.term
    obtain ⟨range', rfl⟩ := hRange.term
    exact ⟨.dataQuantified quantifier property' range', .ordered (hCanonical _ hLast) rfl rfl rfl⟩
  | dataHasValue property value =>
    obtain ⟨_, _, hProperty, hValue, rfl⟩ := forall₂_pair_left h
    obtain ⟨property', rfl⟩ := hProperty.term
    obtain ⟨value', rfl⟩ := hValue.term
    exact ⟨.dataHasValue property' value', .ordered rfl rfl rfl rfl⟩
  | dataCardinality bound count property range =>
    obtain ⟨_, _, hCount, hRest, rfl⟩ := List.forall₂_cons_left_iff.1 h
    obtain ⟨_, _, hProperty, hRange, rfl⟩ := List.forall₂_cons_left_iff.1 hRest
    obtain rfl := hCount.count
    obtain ⟨property', rfl⟩ := hProperty.term
    cases range with
    | none =>
      obtain rfl := List.forall₂_nil_left_iff.1 hRange
      exact ⟨.dataCardinality bound count property' none, .ordered rfl rfl rfl rfl⟩
    | some range =>
      obtain ⟨_, hFirst, rfl⟩ := forall₂_singleton_left hRange
      obtain ⟨range', rfl⟩ := hFirst.term
      exact ⟨.dataCardinality bound count property' (some range'),
        .ordered (hCanonical _ (List.mem_cons_of_mem _ hLast)) rfl rfl rfl⟩

theorem Term.exists_rebuilt (t : Term)
    (h : List.Forall₂ (Label.Follows (Phrase.term t).isNarrow) t.parts c)
    (hCanonical : ∀ l ∈ c, l.phrase.Canonical) :
    ∃ t' : Term, (Phrase.term t).Rebuilt (.term t') c := by
  -- Nothing stands below the other terms.
  have hLeaf : t.parts = [] → t.Canonical → (Phrase.term t).isSetValued = false →
      ∃ t' : Term, (Phrase.term t).Rebuilt (.term t') c := by
    intro hNil ht hOrder
    rw [hNil] at h
    obtain rfl := List.forall₂_nil_left_iff.1 h
    exact ⟨t, hNil ▸ Phrase.Rebuilt.ordered (q := .term t) ht rfl hOrder rfl⟩
  cases t with
  | classExpression e =>
    obtain ⟨e', hRebuilt⟩ := ClassExpression.exists_rebuilt e h hCanonical
    exact ⟨.classExpression e', hRebuilt⟩
  | dataRange range =>
    obtain ⟨range', hRebuilt⟩ := DataRange.exists_rebuilt range h hCanonical
    exact ⟨.dataRange range', hRebuilt⟩
  | objectProperty property =>
    cases property with
    | named iri => exact hLeaf rfl trivial rfl
    | inverse iri =>
      obtain ⟨_, hName, rfl⟩ := forall₂_singleton_left h
      obtain ⟨iri', rfl⟩ := hName.namedProperty
      exact ⟨.objectProperty (.inverse iri'), .ordered trivial rfl rfl rfl⟩
  | facet f =>
    obtain ⟨_, hValue, rfl⟩ := forall₂_singleton_left h
    obtain ⟨value, rfl⟩ := hValue.term
    exact ⟨.facet ⟨f.iri, value⟩, .ordered trivial rfl rfl rfl⟩
  | dataProperty iri => exact hLeaf rfl trivial rfl
  | individual i => exact hLeaf rfl trivial rfl
  | literal v => exact hLeaf rfl trivial rfl

theorem Axiom.exists_rebuilt (ax : Axiom)
    (h : List.Forall₂ (Label.Follows (Phrase.statement ax).isNarrow) ax.parts c)
    (hCanonical : ∀ l ∈ c, l.phrase.Canonical) :
    ∃ ax' : Axiom, (Phrase.statement ax).Rebuilt (.statement ax') c := by
  cases ax with
  | subClassOf sub super =>
    obtain ⟨_, _, hSub, hSuper, rfl⟩ := forall₂_pair_left h
    obtain ⟨sub', rfl⟩ := hSub.term
    obtain ⟨super', rfl⟩ := hSuper.term
    have hBoth : (Axiom.subClassOf sub' super').Canonical := Bool.and_eq_true_iff.2
      ⟨hCanonical _ List.mem_cons_self, hCanonical _ (List.mem_cons_of_mem _ List.mem_cons_self)⟩
    exact ⟨.subClassOf sub' super', .ordered hBoth rfl rfl rfl⟩
  | equivalent operands =>
    obtain ⟨operands', rfl⟩ := Label.Follows.map (fun _ _ h => h.term) h
    refine ⟨equate operands', ClassExpression.canonical_ascend fun e he => ?_, rfl,
      fun _ => mem_map_ascend, fun _ _ => rfl⟩
    exact hCanonical _ (List.mem_map_of_mem he)
  | disjoint operands =>
    obtain ⟨operands', rfl⟩ := Label.Follows.map (fun _ _ h => h.term) h
    refine ⟨separate operands', ClassExpression.canonical_ascend fun e he => ?_, rfl,
      fun _ => mem_map_ascend, fun _ _ => rfl⟩
    exact hCanonical _ (List.mem_map_of_mem he)
  | disjointUnion defined disjuncts =>
    obtain ⟨_, _, hDefined, hDisjuncts, rfl⟩ := List.forall₂_cons_left_iff.1 h
    obtain ⟨defined', rfl⟩ := hDefined.definedClass
    obtain ⟨disjuncts', rfl⟩ := Label.Follows.map (fun _ _ h => h.term) hDisjuncts
    refine ⟨partition defined' disjuncts', ClassExpression.canonical_ascend fun e he => ?_, rfl,
      fun _ => mem_cons_map_ascend, fun d hd => ?_⟩
    · exact hCanonical _ (List.mem_cons_of_mem _ (List.mem_map_of_mem he))
    · rw [partition, Phrase.assemble, Phrase.assemble, assemble, assemble,
        Phrase.classAt?_definedClass hd]
      rfl

/-- A phrase can be rebuilt from labels that follow its parts. -/
theorem Phrase.exists_rebuilt (p : Phrase)
    (h : List.Forall₂ (Label.Follows p.isNarrow) p.parts c)
    (hCanonical : ∀ l ∈ c, l.phrase.Canonical) : ∃ q : Phrase, p.Rebuilt q c := by
  cases p with
  | statement ax =>
    obtain ⟨ax', hRebuilt⟩ := ax.exists_rebuilt h hCanonical
    exact ⟨.statement ax', hRebuilt⟩
  | term t =>
    obtain ⟨t', hRebuilt⟩ := t.exists_rebuilt h hCanonical
    exact ⟨.term t', hRebuilt⟩
  | count n =>
    obtain rfl := List.forall₂_nil_left_iff.1 h
    exact ⟨.count n, .ordered trivial rfl rfl rfl⟩
  | chain properties =>
    obtain ⟨properties', rfl⟩ := Label.Follows.map (fun _ _ h => h.term) h
    exact ⟨.chain properties', .ordered trivial rfl rfl rfl⟩

/-- A phrase put together from labels that follow its parts, once merged, is made of them. -/
theorem Phrase.MadeOf.reassembled {p : Phrase} {d e : List Label} (hc : p.MadeOf c)
    (h : List.Forall₂ (Label.Follows p.isNarrow) c d) (hMerges : p.Merges d e)
    (hCanonical : ∀ l ∈ d, l.phrase.Canonical) :
    (p.assemble e).Canonical ∧ (p.assemble e).MadeOf e := by
  cases hSet : p.isSetValued with
  | false =>
    rw [MadeOf, hSet] at hc
    rw [Merges, hSet] at hMerges
    obtain rfl : c = p.parts := hc
    obtain rfl : e = d := hMerges
    obtain ⟨q, hRebuilt⟩ := p.exists_rebuilt h hCanonical
    have hParts := hRebuilt.parts
    rw [hSet] at hParts
    obtain rfl : q.parts = e := hParts
    exact hRebuilt.assembled q.madeOf_parts
  | true =>
    rw [Merges, hSet] at hMerges
    obtain ⟨hNodup, hMem⟩ := hMerges
    -- Up to order the labels follow the parts of the phrase themselves.
    obtain ⟨d', hFollows, hPerm⟩ := List.perm_comp_forall₂ hc.perm.symm h
    obtain ⟨q, hRebuilt⟩ := p.exists_rebuilt hFollows fun l hl =>
      hCanonical l (hPerm.mem_iff.1 hl)
    have hParts := hRebuilt.parts
    rw [hSet] at hParts
    have hqSet := hRebuilt.isSetValued.trans hSet
    refine hRebuilt.assembled ?_
    rw [MadeOf, hqSet]
    refine (List.perm_ext_iff_of_nodup hNodup (parts_nodup hRebuilt.canonical hqSet)).2 fun l => ?_
    rw [hMem, hParts l, hPerm.mem_iff]

end Rebuilt

end OntoFold
