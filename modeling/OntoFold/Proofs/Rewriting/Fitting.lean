import OntoFold.Proofs.Rewriting.Reassembly
import OntoFold.Proofs.Rewriting.Substitution

/-!
# Substituting terms that fit

After the substitution of any term the nodes hold what they stand for. The tree stays an encoding
when the replacement fits: below an inverse property only a name can stand, and below a restricted
datatype only a datatype. A replacement that does not fit is put there all the same, and the
phrase above falls back on what it held before, so that the tree has a node too many.

* `Label.Admits`: the replacement fits wherever the target stands.
* `Arena.Encodes.substitute_settled`: what holds after the substitution of any term.
* `Arena.substitute_keeps_encoding`: a substitution in the encoding of a phrase.
-/

namespace OntoFold

/-- Where only atomic terms can stand, the replacement is atomic if the target stands there. -/
def Label.Admits (T R : Term) (l : Label) : Prop :=
  ∀ m ∈ l.encode.toList, m.phrase.isNarrow = true → (∃ k ∈ m.phrase.parts, k.phrase = .term T) →
    R.isAtomic = true

instance {T R : Term} : DecidablePred (Label.Admits T R) := fun l =>
  inferInstanceAs (Decidable (∀ m ∈ l.encode.toList, _))

/-! ## Nodes that hold what they stand for -/

/-- Every node holds what it stands for. -/
def Forest.Settled (f : Forest Label) : Prop :=
  ∀ s ∈ f.subtrees, s.label.resolve s.below.decode = s.label

/-- Every node holds what it stands for. -/
def Tree.Settled (t : Tree Label) : Prop :=
  ∀ s ∈ t.subtrees, s.label.resolve s.below.decode = s.label

theorem Forest.Settled.decode {f : Forest Label} (h : f.Settled) : f.decode = f.heads := by
  induction f with
  | nil => rfl
  | cons l b r _ ihRest =>
    have hRest : r.Settled := fun s hs =>
      h s (List.mem_cons_of_mem _ (List.mem_append_right _ hs))
    rw [Forest.decode, ihRest hRest, h ⟨l, b⟩ List.mem_cons_self, heads_cons]

namespace Tree

variable {s t : Tree Label}

theorem Settled.of_mem_subtrees (h : t.Settled) (hs : s ∈ t.subtrees) : s.Settled := by
  intro u hu
  rcases List.mem_cons.1 hu with rfl | hu
  · exact h _ hs
  · exact h u (Tree.subtrees_trans hs hu)

theorem Settled.decode (h : t.Settled) : t.decode = t.label.phrase := by
  rw [Tree.decode, h t List.mem_cons_self]

/-- A faithful tree of canonical phrases is settled. -/
theorem Faithful.settled (h : t.Faithful) (hRoot : t.label.phrase.Canonical) : t.Settled := by
  intro s hs
  have hAt := h.of_mem_subtrees hs
  have hCanonical := h.canonical hRoot (label_mem_toList hs)
  obtain ⟨hMade, hBelow⟩ := faithful_iff.1 hAt
  have hForest : s.below.Canonical := fun l hl =>
    hAt.canonical hCanonical (List.mem_cons_of_mem _ hl)
  rw [hBelow.decode hForest, Forest.resolve_eq_self hCanonical hMade]

end Tree

/-- A refreshed node above settled trees is settled. -/
theorem Forest.settled_refreshed {x : NodeId × Label} {f : Forest (NodeId × Label)}
    (h : ∀ t ∈ f.trees, (t.map Prod.snd).Settled) :
    ((Tree.refreshed ⟨x, f⟩).map Prod.snd).Settled := by
  have hBelow : ((f.mergedFor x.2.phrase).map Prod.snd).Settled := fun s hs => by
    obtain ⟨t, ht, hst⟩ := exists_tree_of_mem_mergedFor hs
    exact h t ht s hst
  intro s hs
  rcases List.mem_cons.1 hs with rfl | hs
  · -- What the root holds has been put together from what the children hold.
    rw [Tree.below_map, Tree.label_map, Tree.refreshed]
    dsimp only
    rw [hBelow.decode, ← labels_eq_heads_map, Label.resolve]
    split
    · rfl
    · dsimp only
      rw [Phrase.assemble_assemble]
  · exact hBelow s hs

/-! ## Replacements that fit -/

/-- A tree and what may become of it: a faithful tree whose label follows the old one. -/
structure Tree.Fits (T R : Term) (s t : Tree (NodeId × Label)) : Prop where
  faithful : (t.map Prod.snd).Faithful
  canonical : t.label.2.phrase.Canonical
  follows : ∀ narrow : Bool, (narrow = true → s.label.2.phrase = .term T → R.isAtomic = true) →
    s.label.2.Follows narrow t.label.2

namespace Tree

variable {T R : Term} {s t : Tree (NodeId × Label)}

theorem Faithful.fits (h : (s.map Prod.snd).Faithful) (hCanonical : s.label.2.phrase.Canonical) :
    Fits T R s s := ⟨h, hCanonical, fun narrow _ => Label.follows_refl narrow s.label.2⟩

/-- The copy of the replacement takes the place of what gives way to it. -/
theorem fits_copy (hCategory : T.sameCategory R = true) (hR : R.Canonical)
    (hGives : s.label.2.GivesWay T R)
    (ht : t.map Prod.snd = Label.encode ⟨.term R, s.label.2.position⟩) : Fits T R s t := by
  have hLabel : t.label.2 = ⟨.term R, s.label.2.position⟩ := congrArg Tree.label ht
  refine ⟨ht ▸ Tree.faithful_encode _, hLabel ▸ hR, fun narrow hNarrow => ?_⟩
  rw [hLabel]
  refine ⟨rfl, by rw [hGives.1]; exact hCategory, fun hWhere _ => ?_⟩
  rcases hWhere with hWhere | hDefined
  · exact hNarrow hWhere hGives.1
  · -- A class is defined by its name.
    have hNamed := hGives.2 hDefined
    cases R with
    | classExpression e => exact hNamed
    | _ => cases hNamed

/-- A refreshed node above fitting trees fits. -/
theorem fits_refreshed (hs : (s.map Prod.snd).Faithful)
    (hAdmits : s.label.2.phrase.isNarrow = true →
      (∃ k ∈ s.label.2.phrase.parts, k.phrase = .term T) → R.isAtomic = true)
    {f : Forest (NodeId × Label)} (hf : List.Forall₂ (Fits T R) s.below.trees f.trees) :
    Fits T R s (refreshed ⟨s.label, f⟩) := by
  have hMade := (faithful_iff.1 hs).1
  rw [below_map, ← Forest.labels_eq_heads_map] at hMade
  obtain ⟨hEach, -⟩ : (∀ t ∈ f.trees, (t.map Prod.snd).Faithful ∧ t.label.2.phrase.Canonical) ∧
      List.Forall₂ (fun _ _ => True) f.trees s.below.trees :=
    (List.forall₂_and_left _ _).1 (hf.flip.imp fun _ _ h => ⟨⟨h.faithful, h.canonical⟩, trivial⟩)
  have hFollows : List.Forall₂ (Label.Follows s.label.2.phrase.isNarrow) s.below.labels
      f.labels := by
    rw [Forest.labels_eq_map_trees, Forest.labels_eq_map_trees, List.forall₂_map_left_iff,
      List.forall₂_map_right_iff]
    have hWith := (List.forall₂_and_left _ _).2 ⟨fun u hu => hu, hf⟩
    refine hWith.imp fun u t ⟨hu, h⟩ => h.follows _ fun hNarrow hTarget => ?_
    refine hAdmits hNarrow ⟨u.label.2, hMade.perm.mem_iff.1 ?_, hTarget⟩
    rw [Forest.labels_eq_map_trees]
    exact List.mem_map_of_mem hu
  have hLabels : ∀ l ∈ f.labels, l.phrase.Canonical := by
    intro l hl
    rw [Forest.labels_eq_map_trees, List.mem_map] at hl
    obtain ⟨t, ht, rfl⟩ := hl
    exact (hEach t ht).2
  obtain ⟨hCanonical, hMadeNew⟩ := hMade.reassembled hFollows
    (Forest.merges_mergedFor s.label.2.phrase f) hLabels
  exact ⟨Forest.faithful_refreshed hMadeNew fun t ht => (hEach t ht).1, hCanonical,
    fun narrow _ => Label.follows_assemble narrow s.label.2 _⟩

end Tree

/-! ## The outcome -/

namespace Arena

variable {a : Arena} {l : Label} {T R : Term}

/-- The substitution of any term never fails, and all nodes hold what they stand for. When the
replacement fits, the arena stays an encoding. -/
theorem Encodes.substitute_settled (h : a.Encodes l) (hl : l.phrase.Canonical)
    (hR : R.Canonical) :
    ∃ count b u, (a.substitute T R).result = .ok (count, b) ∧ b.Represents u ∧
      (u.map Prod.snd).Settled ∧ (l.Admits T R → (u.map Prod.snd).Faithful ∧
        u.label.2.phrase.Canonical ∧ u.label.2.position = l.position) := by
  obtain ⟨t, hRep, rfl, hFaithful⟩ := h
  cases hCategory : T.sameCategory R with
  | false => exact ⟨0, a, t, substitute_refused hCategory, hRep, hFaithful.settled hl,
      fun _ => ⟨hFaithful, hl, rfl⟩⟩
  | true =>
    have hIn : ∀ s ∈ t.subtrees, s.label.2 ∈ t.label.2.encode.toList := fun s hs =>
      hFaithful.sameUpToOrder.toList_perm.mem_iff.1
        (Tree.label_mem_toList (Tree.map_mem_subtrees Prod.snd hs))
    obtain ⟨b, u, hRun, hb, hSettled, hFits⟩ : ∃ b u, (a.substitute T R).result = .ok
          (t.toList.countP fun x => x.2.GivesWay T R, b) ∧ b.Represents u ∧
        (u.map Prod.snd).Settled ∧ (t.label.2.Admits T R → t.Fits T R u) := by
      refine hRep.substitute (P := fun s c => (c.map Prod.snd).Settled ∧
        (t.label.2.Admits T R → s.Fits T R c)) hFaithful hl hR hCategory ?copy ?refreshed ?kept
      case copy =>
        intro s hs hGives c hc
        refine ⟨?_, fun _ => Tree.fits_copy hCategory hR hGives hc⟩
        rw [hc]
        exact (Tree.faithful_encode _).settled hR
      case refreshed =>
        intro s hs _ c hc
        obtain ⟨hEach, hBoth⟩ := (List.forall₂_and_left _ _).1 hc.flip
        obtain ⟨-, hBelow⟩ := Tree.Faithful.subtree hFaithful hl hs
        refine ⟨Forest.settled_refreshed hEach, fun hAdmits => ?_⟩
        refine Tree.fits_refreshed hBelow (hAdmits _ (hIn s hs)) ?_
        exact (hBoth.imp fun _ _ h => h hAdmits).flip
      case kept =>
        intro s hs _
        obtain ⟨hCanonical, hBelow⟩ := Tree.Faithful.subtree hFaithful hl hs
        exact ⟨hBelow.settled hCanonical, fun _ => hBelow.fits hCanonical⟩
    refine ⟨_, b, u, hRun, hb, hSettled, fun hAdmits => ?_⟩
    have hFits := hFits hAdmits
    exact ⟨hFits.faithful, hFits.canonical, (hFits.follows false (fun h => by cases h)).position⟩

/-- What the substitution of terms of any category makes of the encoding of a phrase: every node
holds what it stands for, and when the replacement fits, the tree is the encoding of what it stands
for, up to the order of sets, and no node is left over. -/
theorem substitute_keeps_encoding {p : Phrase} (hp : p.Canonical) (T : Term) (hR : R.Canonical) :
    ∃ start count a q, ofPhrase p none = .ok start ∧
      (start.substitute T R).result = .ok (count, a) ∧ a.decode = .ok q ∧
      (∃ n, a.get? a.root = some n ∧ n.label.phrase = q) ∧
      (∀ id n, a.get? id = some n → a.decodeAt id = .ok n.label.phrase) ∧
      (Label.Admits T R (.bare p) → ∃ t fresh, a.tree = .ok t ∧ t.SameUpToOrder (q.encode none) ∧
        ofPhrase q none = .ok fresh ∧ a.size = fresh.size) := by
  obtain ⟨start, hStart, hEncodes⟩ := ofPhrase_encodes p none
  obtain ⟨count, a, u, hRun, ha, hSettled, hEncoding⟩ :=
    hEncodes.substitute_settled (T := T) hp hR
  refine ⟨start, count, a, u.label.2.phrase, hStart, hRun, ?decode, ?root, ?settled, ?admits⟩
  case decode =>
    rw [ha.decode, hSettled.decode]
    rfl
  case root => exact ⟨_, ha.root.symm ▸ ha.get?_root, rfl⟩
  case settled =>
    intro id n hGet
    obtain ⟨below, hs, -⟩ := ha.exists_subtree hGet
    rw [ha.decodeAt hs, (hSettled.of_mem_subtrees (Tree.map_mem_subtrees Prod.snd hs)).decode]
    rfl
  case admits =>
    intro hAdmits
    obtain ⟨hFaithful, hCanonical, hPosition⟩ := hEncoding hAdmits
    obtain ⟨fresh, hFresh, hFreshEncodes⟩ := ofPhrase_encodes u.label.2.phrase none
    have hSame := hFaithful.sameUpToOrder
    have hLabel : u.label.2 = .bare u.label.2.phrase :=
      congrArg (Label.mk u.label.2.phrase) hPosition
    have hSize : a.size = u.label.2.phrase.size :=
      Encodes.size ⟨u, ha, rfl, hFaithful⟩
    rw [Tree.label_map, hLabel] at hSame
    exact ⟨u.map Prod.snd, fresh, ha.tree, hSame, hFresh, hSize.trans hFreshEncodes.size.symm⟩

/-- An inverse property takes the place of a name that stands under no inverse property. -/
theorem substitute_keeps_encoding_inverse :
    let p : Phrase := .ofClass (.quantified .existential (.named ⟨"r"⟩)
      (.quantified .universal (.inverse ⟨"s"⟩) (.named ⟨"C"⟩)))
    let T : Term := .objectProperty (.named ⟨"r"⟩)
    let R : Term := .objectProperty (.inverse ⟨"s"⟩)
    p.Canonical ∧ R.Canonical ∧ Label.Admits T R (.bare p) ∧
    ∃ start count a q, ofPhrase p none = .ok start ∧
      (start.substitute T R).result = .ok (count, a) ∧ a.decode = .ok q ∧
      (∃ n, a.get? a.root = some n ∧ n.label.phrase = q) ∧
      (∀ id n, a.get? id = some n → a.decodeAt id = .ok n.label.phrase) ∧
      (∃ t fresh, a.tree = .ok t ∧ t.SameUpToOrder (q.encode none) ∧
        ofPhrase q none = .ok fresh ∧ a.size = fresh.size) ∧
      q = .ofClass (.quantified .existential (.inverse ⟨"s"⟩)
        (.quantified .universal (.inverse ⟨"s"⟩) (.named ⟨"C"⟩))) := by
  intro p T R
  have hp : p.Canonical := by decide +kernel
  have hAdmits : Label.Admits T R (.bare p) := by decide +kernel
  obtain ⟨start, count, a, q, hStart, hRun, hDecode, hRoot, hSettled, hEncoding⟩ :=
    substitute_keeps_encoding hp T (R := R) trivial
  have hResult : ∀ start, ofPhrase p none = .ok start →
      ∀ x, (start.substitute T R).result = .ok x →
        x.2.decode = .ok (.ofClass (.quantified .existential (.inverse ⟨"s"⟩)
          (.quantified .universal (.inverse ⟨"s"⟩) (.named ⟨"C"⟩)))) := by
    decide +kernel
  have hReplaced := Except.ok.inj (hDecode.symm.trans (hResult start hStart _ hRun))
  exact ⟨hp, trivial, hAdmits, start, count, a, q, hStart, hRun, hDecode, hRoot, hSettled,
    hEncoding hAdmits, hReplaced⟩

/-- An inverse property takes the place of a name that stands under an inverse property. What the
tree then stands for has a node less than the tree. -/
theorem substitute_leaves_node :
    let p : Phrase := .ofClass (.quantified .existential (.inverse ⟨"r"⟩) (.named ⟨"C"⟩))
    let T : Term := .objectProperty (.named ⟨"r"⟩)
    let R : Term := .objectProperty (.inverse ⟨"s"⟩)
    p.Canonical ∧ R.Canonical ∧
    ∃ start count a q fresh, ofPhrase p none = .ok start ∧
      (start.substitute T R).result = .ok (count, a) ∧ a.decode = .ok q ∧
      ofPhrase q none = .ok fresh ∧ a.size ≠ fresh.size := by
  intro p T R
  refine ⟨by decide +kernel, trivial, ?_⟩
  have hRun : (ofPhrase p none >>= fun start => (start.substitute T R).result >>= fun x =>
      x.2.decode >>= fun q => ofPhrase q none >>= fun fresh => .ok (x.2.size, fresh.size)) =
        .ok (5, 4) := by
    decide +kernel
  obtain ⟨start, hStart, hRun⟩ := Run.bind_eq_ok hRun
  obtain ⟨x, hStep, hRun⟩ := Run.bind_eq_ok hRun
  obtain ⟨q, hDecode, hRun⟩ := Run.bind_eq_ok hRun
  obtain ⟨fresh, hFresh, hRun⟩ := Run.bind_eq_ok hRun
  obtain ⟨hSize, hFreshSize⟩ := Prod.mk.inj (Except.ok.inj hRun)
  refine ⟨start, x.1, x.2, q, fresh, hStart, hStep, hDecode, hFresh, ?_⟩
  rw [hSize, hFreshSize]
  decide

end Arena

end OntoFold
