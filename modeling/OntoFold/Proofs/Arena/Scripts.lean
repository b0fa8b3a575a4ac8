import OntoFold.Proofs.Arena.Edits

/-!
# Scripts of edits

A script builds an arena from single nodes by edits one after another; what is put in the place
of a subtree is built by a script of its own. When every edit names an address in use, and no edit
removes the root, a script never fails: each edit finds an arena that represents a tree and leaves
one behind, whatever slots it takes over. The links, the order of reading and the free list of such
an arena are in order.

* `Arena.Script.run_represents`: scripts build arenas that represent trees.
* `Arena.Script.run_sound`: scripts build arenas that are in order.
-/

namespace OntoFold

namespace Arena

/-! ## Scripts -/

/-- Edits that build an arena. -/
inductive Script where
  | single (label : Label)
  | addChild (s : Script) (parent : NodeId) (label : Label)
  | setPhrase (s : Script) (id : NodeId) (phrase : Phrase)
  | setPosition (s : Script) (id : NodeId) (position : Option Position)
  | replaceSubtree (s : Script) (id : NodeId) (other : Script)
  | removeChild (s : Script) (id : NodeId)

namespace Script

/-- The arena that a script builds. -/
def run : Script → Except Fault Arena
  | single label => .ok (Arena.single label)
  | addChild s parent label => do return (← (← s.run).addChild parent label).2
  | setPhrase s id phrase => do (← s.run).setPhrase id phrase
  | setPosition s id position => do (← s.run).setPosition id position
  | replaceSubtree s id other => do return (← (← s.run).replaceSubtree id (← other.run)).2
  | removeChild s id => do (← s.run).removeChild id

/-- Every address is in use when an edit names it, and the root is not removed. -/
def Allowed : Script → Prop
  | single _ => True
  | addChild s id _ | setPhrase s id _ | setPosition s id _ =>
    s.Allowed ∧ ∀ a, s.run = .ok a → (a.get? id).isSome
  | replaceSubtree s id other =>
    (s.Allowed ∧ other.Allowed) ∧ ∀ a, s.run = .ok a → (a.get? id).isSome
  | removeChild s id => s.Allowed ∧ ∀ a, s.run = .ok a → (a.get? id).isSome ∧ id ≠ a.root

instance decidableAllowed : DecidablePred Allowed
  | single _ => isTrue trivial
  | addChild s _ _ | setPhrase s _ _ | setPosition s _ _ =>
    have := decidableAllowed s
    inferInstanceAs (Decidable (_ ∧ _))
  | replaceSubtree s _ other =>
    have := decidableAllowed s
    have := decidableAllowed other
    inferInstanceAs (Decidable (_ ∧ _))
  | removeChild s _ =>
    have := decidableAllowed s
    inferInstanceAs (Decidable (_ ∧ _))

/-- A script builds an arena that represents a tree: each edit names an address in use. -/
theorem run_represents {s : Script} (h : s.Allowed) : ∃ a t, s.run = .ok a ∧ a.Represents t := by
  induction s with
  | single label => exact ⟨_, _, rfl, represents_single label⟩
  | addChild s parent label ih =>
    obtain ⟨a, t, hRun, ha⟩ := ih h.1
    obtain ⟨b, u, hEdit, hb⟩ :=
      ha.edit (.addChild parent label) trivial (h.2 a hRun) Edit.noConfusion
    exact ⟨b, u, by rw [run, hRun]; exact hEdit, hb⟩
  | setPhrase s id phrase ih =>
    obtain ⟨a, t, hRun, ha⟩ := ih h.1
    obtain ⟨b, u, hEdit, hb⟩ :=
      ha.edit (.setPhrase id phrase) trivial (h.2 a hRun) Edit.noConfusion
    exact ⟨b, u, by rw [run, hRun]; exact hEdit, hb⟩
  | setPosition s id position ih =>
    obtain ⟨a, t, hRun, ha⟩ := ih h.1
    obtain ⟨b, u, hEdit, hb⟩ :=
      ha.edit (.setPosition id position) trivial (h.2 a hRun) Edit.noConfusion
    exact ⟨b, u, by rw [run, hRun]; exact hEdit, hb⟩
  | replaceSubtree s id other ih ihOther =>
    obtain ⟨a, t, hRun, ha⟩ := ih h.1.1
    obtain ⟨o, r, hOther, ho⟩ := ihOther h.1.2
    obtain ⟨b, u, hEdit, hb⟩ :=
      ha.edit (.replaceSubtree id o) ho.sound (h.2 a hRun) Edit.noConfusion
    exact ⟨b, u, by rw [run, hRun, hOther]; exact hEdit, hb⟩
  | removeChild s id ih =>
    obtain ⟨a, t, hRun, ha⟩ := ih h.1
    obtain ⟨hId, hRoot⟩ := h.2 a hRun
    obtain ⟨b, u, hEdit, hb⟩ :=
      ha.edit (.removeChild id) trivial hId fun hEq => hRoot (Edit.removeChild.inj hEq)
    exact ⟨b, u, by rw [run, hRun]; exact hEdit, hb⟩

/-- A script never fails, and the arena it builds is in order. -/
theorem run_sound (s : Script) (h : s.Allowed) : ∃ a, s.run = .ok a ∧ a.Sound := by
  obtain ⟨a, t, hRun, ha⟩ := run_represents h
  exact ⟨a, hRun, ha.sound⟩

/-- A copy takes over the slots of what it replaces, its child the slot of the old root. -/
theorem run_sound_recycling :
    let leaf (n : Nat) : Label := ⟨.count n, none⟩
    let s : Script := .replaceSubtree
      (.addChild (.addChild (.single (leaf 0)) 0 (leaf 1)) 1 (leaf 2)) 1
      (.addChild (.single (leaf 3)) 0 (leaf 4))
    s.Allowed ∧ ∃ a, s.run = .ok a ∧ a.Sound ∧ a.preorder = .ok [0, 2, 1] := by
  intro leaf s
  have hAllowed : s.Allowed := by decide +kernel
  obtain ⟨a, hRun, hSound⟩ := run_sound s hAllowed
  have hOrder : (s.run >>= Arena.preorder) = .ok [0, 2, 1] := by decide +kernel
  rw [hRun] at hOrder
  exact ⟨hAllowed, a, hRun, hSound, hOrder⟩

end Script

end Arena

end OntoFold
