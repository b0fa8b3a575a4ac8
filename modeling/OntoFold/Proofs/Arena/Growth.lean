import OntoFold.Proofs.Arena.Representation

/-!
# Growing an arena

Adding nodes never fails below an occupied slot. A forest planted below a node becomes the
last part of its children, and every other node stays as it is.

* `Arena.plant_grows`: what planting a forest does.
* `Arena.ofTree_represents`: a tree in an arena of its own is represented there.
-/

namespace OntoFold

namespace Arena

/-- One arena is another one with a forest added below a node. -/
structure Grows (a b : Arena) (parent : NodeId) (ids : List NodeId)
    (g : Forest (NodeId × Label)) : Prop where
  tidy : b.Tidy (g.ids ++ ids)
  holds : b.Holds (some parent) g
  extended : ∀ n, a.get? parent = some n →
    b.get? parent = some { n with children := n.children ++ g.roots }
  other : ∀ j ∈ ids, j ≠ parent → b.get? j = a.get? j
  root : b.root = a.root

variable {a : Arena} {ids : List NodeId} {parent : NodeId}

theorem addChild_grows (h : a.Tidy ids) (hParent : parent ∈ ids) (l : Label) :
    ∃ id b, a.addChild parent l = .ok (id, b) ∧ id ∉ ids ∧
      Grows a b parent ids (.cons (id, l) .nil .nil) := by
  obtain ⟨n, hn⟩ := h.get?_of_mem hParent
  obtain ⟨b, hAlloc, hTidy, hSelf, hOther, hRoot⟩ := h.alloc ⟨l, some parent, []⟩
  have hNew := h.nextSlot_not_mem
  have hne : parent ≠ a.nextSlot := fun hEq => hNew (hEq ▸ hParent)
  have hn' : b.get? parent = some n := (hOther parent hne).trans hn
  have hSize := hTidy.lt_size (List.mem_cons_of_mem _ hParent)
  refine ⟨_, b.setSlot parent (some { n with children := n.children ++ [a.nextSlot] }), ?_, hNew,
    ?tidy, ?holds, ?extended, ?other, hRoot⟩
  · simp only [addChild, hAlloc, modify_eq_ok hn', bind, Except.bind]
    rfl
  case tidy => simpa using hTidy.setSlot (List.mem_cons_of_mem _ hParent) _
  case holds =>
    refine ⟨?_, trivial, trivial⟩
    rw [get?_setSlot_ne (Ne.symm hne)]
    exact hSelf
  case extended =>
    intro m hm
    obtain rfl : n = m := Option.some.inj (hn.symm.trans hm)
    rw [get?_setSlot_self hSize]
    rfl
  case other =>
    intro j hj hjp
    rw [get?_setSlot_ne hjp, hOther j fun hEq => hNew (hEq ▸ hj)]

/-- Planting a forest adds it, with new addresses, behind the children of a node. -/
theorem plant_grows (h : a.Tidy ids) (hParent : parent ∈ ids) (f : Forest Label) :
    ∃ g b, plant parent f a = .ok b ∧ g.map Prod.snd = f ∧ Grows a b parent ids g := by
  induction f generalizing a ids parent with
  | nil =>
    refine ⟨.nil, a, rfl, rfl, ?_, trivial, fun n hn => ?_, fun _ _ _ => rfl, rfl⟩
    · simpa using h
    · simpa using hn
  | cons l below rest ihBelow ihRest =>
    -- First the root of the first tree, then the later siblings, then what is below the root.
    obtain ⟨id, b, hAdd, hNew, hGrow⟩ := addChild_grows h hParent l
    have hTidy : b.Tidy (id :: ids) := by simpa using hGrow.tidy
    have hne : id ≠ parent := fun hEq => hNew (hEq ▸ hParent)
    obtain ⟨gRest, c, hPlantRest, hMapRest, hRest⟩ :=
      ihRest hTidy (List.mem_cons_of_mem id hParent)
    have hIdMem : id ∈ gRest.ids ++ id :: ids := List.mem_append_right _ List.mem_cons_self
    obtain ⟨gBelow, d, hPlantBelow, hMapBelow, hBelow⟩ := ihBelow hRest.tidy hIdMem
    have hDisjoint := (List.nodup_append.1 hRest.tidy.nodup).2.2
    refine ⟨.cons (id, l) gBelow gRest, d, ?_, ?_, ?tidy, ⟨?head, hBelow.holds, ?rest⟩, ?extended,
      ?other, ?root⟩
    · simp only [plant, hAdd, bind, Except.bind, hPlantRest, hPlantBelow]
    · simp only [Forest.map, hMapBelow, hMapRest]
    case tidy =>
      refine hBelow.tidy.perm ?_
      rw [Forest.ids_cons, List.cons_append, List.append_assoc]
      refine .trans ?_ List.perm_middle
      exact List.perm_middle.append_left gBelow.ids
    case head =>
      have hb : b.get? id = some ⟨l, some parent, []⟩ := hGrow.holds.1
      have hc : c.get? id = some ⟨l, some parent, []⟩ :=
        (hRest.other id List.mem_cons_self hne).trans hb
      exact hBelow.extended _ hc
    case rest =>
      refine hRest.holds.congr fun j hj => hBelow.other j (List.mem_append_left _ hj) ?_
      exact hDisjoint j hj id List.mem_cons_self
    case extended =>
      intro n hn
      rw [hBelow.other parent (List.mem_append_right _ (List.mem_cons_of_mem _ hParent))
        (Ne.symm hne), hRest.extended _ (hGrow.extended n hn)]
      simp
    case other =>
      intro j hj hjp
      have hjid : j ≠ id := fun hEq => hNew (hEq ▸ hj)
      rw [hBelow.other j (List.mem_append_right _ (List.mem_cons_of_mem _ hj)) hjid,
        hRest.other j (List.mem_cons_of_mem _ hj) hjp, hGrow.other j hj hjp]
    case root => rw [hBelow.root, hRest.root, hGrow.root]

/-- A tree in an arena of its own is represented there. -/
theorem ofTree_represents (t : Tree Label) :
    ∃ (s : Tree (NodeId × Label)) (a : Arena), ofTree t = .ok a ∧
      s.map Prod.snd = t ∧ a.Represents s := by
  obtain ⟨g, b, hPlant, hMap, hGrow⟩ :=
    plant_grows (tidy_single t.label) (List.mem_singleton_self 0) t.below
  refine ⟨⟨(0, t.label), g⟩, b, hPlant, ?_, hGrow.root, ⟨?_, hGrow.holds, trivial⟩, ?_⟩
  · simp only [Tree.map, hMap]
  · rw [hGrow.extended ⟨t.label, none, []⟩ rfl]
    rfl
  · exact hGrow.tidy.perm (List.perm_append_comm.trans (.of_eq rfl))

theorem ofPhrase_represents (p : Phrase) (position : Option Position) :
    ∃ (t : Tree (NodeId × Label)) (a : Arena), ofPhrase p position = .ok a ∧
      t.map Prod.snd = p.encode position ∧ a.Represents t :=
  ofTree_represents (p.encode position)

/-- Grafting a tree adds it, with new addresses, as the last child of a node. -/
theorem graft_grows (h : a.Tidy ids) (hParent : parent ∈ ids) (t : Tree Label) :
    ∃ (s : Tree (NodeId × Label)) (b : Arena), a.graft parent t = .ok (s.label.1, b) ∧
      s.map Prod.snd = t ∧ Grows a b parent ids s.toForest := by
  obtain ⟨id, b, hAdd, hNew, hGrow⟩ := addChild_grows h hParent t.label
  have hTidy : b.Tidy (id :: ids) := by simpa using hGrow.tidy
  have hne : id ≠ parent := fun hEq => hNew (hEq ▸ hParent)
  obtain ⟨g, c, hPlant, hMap, hBelow⟩ := plant_grows hTidy List.mem_cons_self t.below
  refine ⟨⟨(id, t.label), g⟩, c, ?_, ?_, ?tidy, ⟨?head, hBelow.holds, trivial⟩, ?extended,
    ?other, ?root⟩
  · simp only [graft, hAdd, bind, Except.bind, hPlant]
    rfl
  · simp only [Tree.map, hMap]
  case tidy =>
    refine hBelow.tidy.perm ?_
    simp
  case head => exact hBelow.extended _ hGrow.holds.1
  case extended =>
    intro n hn
    rw [hBelow.other parent (List.mem_cons_of_mem _ hParent) (Ne.symm hne), hGrow.extended n hn]
    rfl
  case other =>
    intro j hj hjp
    have hjid : j ≠ id := fun hEq => hNew (hEq ▸ hj)
    rw [hBelow.other j (List.mem_cons_of_mem _ hj) hjid, hGrow.other j hj hjp]
  case root => rw [hBelow.root, hGrow.root]

end Arena

end OntoFold
