import OntoFold.Proofs.Rewriting.Terms

/-!
# Rewriting names

A rewriting by name replaces named classes only, so what it does to an expression is determined
by the names of the expression.

* `ClassExpression.mem_names_rewrite`: the names after a rewriting.
* `ClassExpression.rewrite_rewrite_byName`: rewritings that a rewriting by name does not notice.
-/

namespace OntoFold

namespace ClassExpression

variable {e r : ClassExpression} {f : Iri → Option ClassExpression} {m n : Iri}

/-! ## The names of an expression -/

theorem mem_filterMap_name? {es : List ClassExpression} :
    n ∈ es.filterMap name? ↔ .named n ∈ es := by
  rw [List.mem_filterMap]
  constructor
  · rintro ⟨e, he, hName⟩
    cases e with
    | named m =>
      obtain rfl := Option.some.inj hName
      exact he
    | _ => cases hName
  · intro h
    exact ⟨.named n, h, rfl⟩

theorem mem_names_iff_position : n ∈ e.names ↔ .named n ∈ e.positions := by
  rw [names, SortedSet.mem_ofList, mem_filterMap_name?]

theorem mem_names_iff : n ∈ e.names ↔ e = .named n ∨ ∃ o ∈ e.operands, n ∈ o.names := by
  rw [mem_names_iff_position, mem_positions_iff]
  refine or_congr eq_comm (exists_congr fun o => ?_)
  rw [mem_names_iff_position]

@[simp] theorem mem_names_named : n ∈ (named m).names ↔ n = m := by
  rw [mem_names_iff]
  simp [operands, eq_comm]

theorem name?_mapOperands (h : ClassExpression → ClassExpression) :
    (e.mapOperands h).name? = e.name? := by
  cases e <;> rfl

theorem eq_named_of_name? (h : e.name? = some n) : e = .named n := by
  cases e with
  | named m => exact congrArg named (Option.some.inj h)
  | _ => cases h

theorem ascend_map_ascend_map {es : List ClassExpression}
    (h k : ClassExpression → ClassExpression) :
    ascend ((ascend (es.map h)).map k) = ascend (es.map fun o => k (h o)) := by
  apply ascend_congr
  intro x
  simp [mem_ascend]

theorem mapOperands_mapOperands (h k : ClassExpression → ClassExpression) :
    (e.mapOperands h).mapOperands k = e.mapOperands fun o => k (h o) := by
  cases e with
  | combined connective operands => exact congrArg _ (ascend_map_ascend_map h k)
  | cardinality bound count property filler => cases filler <;> rfl
  | _ => rfl

/-! ## Rewriting by name -/

/-- A replacement for some of the names. -/
def byName (f : Iri → Option ClassExpression) : ClassExpression → Option ClassExpression :=
  fun e => e.name?.bind f

theorem byName_eq_none (h : e.name? = none) : byName f e = none := by
  rw [byName, h, Option.bind_none]

theorem rewrite_byName_named : (named n).rewrite (byName f) = (f n).getD (.named n) := by
  rw [rewrite_eq]
  rfl

theorem rewrite_byName_of_name? (h : e.name? = none) :
    e.rewrite (byName f) = e.mapOperands (rewrite (byName f)) :=
  rewrite_of_eq_none (byName_eq_none h)

theorem name?_rewrite_byName (h : e.name? = none) : (e.rewrite (byName f)).name? = none := by
  rw [rewrite_byName_of_name? h, name?_mapOperands, h]

theorem rewrite_byName_eq_self (he : e.Canonical) (h : ∀ n ∈ e.names, f n = none) :
    e.rewrite (byName f) = e := by
  apply rewrite_eq_self he
  intro s hs
  cases hName : s.name? with
  | none => exact byName_eq_none hName
  | some n =>
    rw [byName, hName, Option.bind_some]
    apply h
    rw [mem_names_iff_position, ← eq_named_of_name? hName]
    exact hs

/-- The names after a rewriting are those of the replacements and those that have none. -/
theorem mem_names_rewrite :
    n ∈ (e.rewrite (byName f)).names ↔ ∃ m ∈ e.names, n ∈ ((f m).getD (.named m)).names := by
  induction e using operands_induction with
  | step e ih =>
    cases hName : e.name? with
    | some m =>
      rw [eq_named_of_name? hName, rewrite_byName_named]
      simp
    | none =>
      have hNamed : ∀ m, e ≠ .named m := by
        rintro m rfl
        cases hName
      have hRewritten : e.mapOperands (rewrite (byName f)) ≠ .named n := by
        intro hEq
        have hSame := name?_mapOperands (e := e) (rewrite (byName f))
        rw [hEq, hName] at hSame
        cases hSame
      rw [rewrite_byName_of_name? hName, mem_names_iff, or_iff_right hRewritten]
      constructor
      · rintro ⟨x, hx, hn⟩
        obtain ⟨o, ho, rfl⟩ := mem_operands_mapOperands.1 hx
        obtain ⟨m, hm, hn⟩ := (ih o ho).1 hn
        exact ⟨m, mem_names_iff.2 (Or.inr ⟨o, ho, hm⟩), hn⟩
      · rintro ⟨m, hm, hn⟩
        obtain ⟨o, ho, hm⟩ := (mem_names_iff.1 hm).resolve_left (hNamed m)
        exact ⟨_, mem_operands_mapOperands.2 ⟨o, ho, rfl⟩, (ih o ho).2 ⟨m, hm, hn⟩⟩

/-- A replacement of a name is nested inside the result. -/
theorem mem_positions_rewrite (hn : n ∈ e.names) (hr : f n = some r) :
    r ∈ (e.rewrite (byName f)).positions := by
  induction e using operands_induction with
  | step e ih =>
    rcases mem_names_iff.1 hn with rfl | ⟨o, ho, hn⟩
    · rw [rewrite_byName_named, hr]
      exact mem_positions_iff.2 (Or.inl rfl)
    · have hName : e.name? = none := by
        cases e with
        | named m => cases ho
        | _ => rfl
      rw [rewrite_byName_of_name? hName]
      exact mem_positions_mapOperands ho (ih o ho hn)

/-- It is nested inside an operand of the result unless the expression is the name. -/
theorem exists_operand_rewrite (hName : e.name? = none) (hn : n ∈ e.names) (hr : f n = some r) :
    ∃ o ∈ (e.rewrite (byName f)).operands, r ∈ o.positions := by
  have hNe : e ≠ .named n := by
    rintro rfl
    cases hName
  obtain ⟨o, ho, hn⟩ := (mem_names_iff.1 hn).resolve_left hNe
  rw [rewrite_byName_of_name? hName]
  exact ⟨_, mem_operands_mapOperands.2 ⟨o, ho, rfl⟩, mem_positions_rewrite hn hr⟩

/-! ## Earlier rewritings -/

/-- A rewriting by name does not notice an earlier rewriting whose replacements it would undo or
do itself. -/
theorem rewrite_rewrite_byName {σ : ClassExpression → Option ClassExpression}
    (h : ∀ t r, σ t = some r → t.rewrite (byName f) = r.rewrite (byName f)) :
    (e.rewrite σ).rewrite (byName f) = e.rewrite (byName f) := by
  induction e using operands_induction with
  | step e ih =>
    cases hs : σ e with
    | some r => rw [rewrite_of_eq_some hs, h e r hs]
    | none =>
      rw [rewrite_of_eq_none hs]
      cases hName : e.name? with
      | some n =>
        rw [eq_named_of_name? hName]
        rfl
      | none =>
        have hMapped := (name?_mapOperands (e := e) (rewrite σ)).trans hName
        rw [rewrite_byName_of_name? hMapped, rewrite_byName_of_name? hName,
          mapOperands_mapOperands]
        exact mapOperands_congr ih

/-- Nor does it notice a sequence of such replacements. -/
theorem rewrite_rewriteEach {steps : List (ClassExpression × ClassExpression)}
    (h : ∀ step ∈ steps, step.1.rewrite (byName f) = step.2.rewrite (byName f)) :
    (e.rewriteEach steps).rewrite (byName f) = e.rewrite (byName f) := by
  induction steps generalizing e with
  | nil => rfl
  | cons step steps ih =>
    show ((e.rewrite (replacing step.1 step.2)).rewriteEach steps).rewrite (byName f) = _
    rw [ih fun s hs => h s (List.mem_cons_of_mem _ hs)]
    apply rewrite_rewrite_byName
    intro t r hr
    obtain ⟨rfl, rfl⟩ := replacing_eq_some.1 hr
    exact h step List.mem_cons_self

/-! ## Single replacements -/

theorem replacing_named :
    replacing (.named n) r = byName fun m => if m = n then some r else none := by
  funext e
  cases e with
  | named m => simp [replacing, byName, name?]
  | _ => simp [replacing, byName, name?]

/-- The names after one name is replaced. -/
theorem mem_names_replacing (h : m ∈ (e.rewrite (replacing (.named n) r)).names) :
    (m ∈ e.names ∧ m ≠ n) ∨ m ∈ r.names := by
  rw [replacing_named, mem_names_rewrite] at h
  obtain ⟨k, hk, hm⟩ := h
  split at hm
  · exact Or.inr hm
  · next hNe =>
    obtain rfl := mem_names_named.1 hm
    exact Or.inl ⟨hk, hNe⟩

end ClassExpression

end OntoFold
