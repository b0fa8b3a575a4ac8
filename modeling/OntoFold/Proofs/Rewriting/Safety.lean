import OntoFold.Proofs.Rewriting.Fitting

/-!
# Substitutions of any terms, one after another

While the arena is an encoding, the nodes that hold a term are not nested, and each of them still
holds it when its turn comes. A replacement that fits leaves an encoding behind, so the next
substitution can be done as well; after one that does not fit, nodes may be nested.

* `Arena.Encodes.safe`: a substitution in an encoding finds every node it looks for.
* `Arena.substituteTerms_never_fails`: a sequence of substitutions, all but the last one fitting.
-/

namespace OntoFold

namespace Arena

/-- Substitutions, one after another. -/
def substituteTerms : List (Term × Term) → Arena → Run Arena
  | [], a => return a
  | (T, R) :: steps, a => do
    let (_, a) ← a.substitute T R
    substituteTerms steps a

/-- Every replacement but the last one fits into what the arena stands for at its turn. -/
def AdmitsEach (position : Option Position) : List (Term × Term) → Arena → Prop
  | (T, R) :: next :: steps, a =>
    (∀ q, a.decode = .ok q → Label.Admits T R ⟨q, position⟩) ∧
      ∀ x, (a.substitute T R).result = .ok x → AdmitsEach position (next :: steps) x.2
  | _, _ => True

instance decidableAdmitsEach {position : Option Position} :
    ∀ steps a, Decidable (AdmitsEach position steps a)
  | [], _ => isTrue trivial
  | [_], _ => isTrue trivial
  | (_, _) :: next :: steps, _ =>
    have : DecidablePred (AdmitsEach position (next :: steps)) :=
      decidableAdmitsEach (next :: steps)
    inferInstanceAs (Decidable (_ ∧ _))

/-- The substitution does not fail: the nodes that hold the target are not nested, and each one is
in use and holds the target when its turn comes. -/
structure Safe (T R : Term) (a : Arena) : Prop where
  succeeds : ∃ x, (a.substitute T R).result = .ok x
  turns : ∃ t, a.addressed = .ok t ∧ Separate T t ∧
    ∀ done x rest, holders t T = done ++ x :: rest →
      ∃ b parents, (replaceAll T R (done.map Prod.fst) [] a).result = .ok ⟨b, some parents⟩ ∧
        ∃ n, b.get? x.1 = some n ∧ n.label.phrase = .term T

variable {a : Arena} {l : Label} {T R : Term} {steps : List (Term × Term)}

/-- A substitution in an encoding is safe. -/
theorem Encodes.safe (h : a.Encodes l) (hl : l.phrase.Canonical) (hR : R.Canonical) :
    a.Safe T R := by
  obtain ⟨count, b, u, hRun, -⟩ := h.substitute_settled (T := T) hl hR
  obtain ⟨t, hRep, -, hFaithful⟩ := h
  refine ⟨⟨_, hRun⟩, t, hRep.addressed, separate_of_faithful hFaithful, fun done x rest hTurn => ?_⟩
  obtain ⟨b, parents, hDone, n, hGet, hLabel⟩ := hRep.get?_at_turn (R := R) hFaithful hTurn
  have hHolds : x ∈ holders t T := hTurn ▸ List.mem_append_right done List.mem_cons_self
  refine ⟨b, parents, hDone, n, hGet, ?_⟩
  rw [hLabel]
  exact (mem_holders.1 hHolds).2

/-- A sequence of substitutions in an encoding never fails, and every step is safe. -/
theorem Encodes.substituteTerms (h : a.Encodes l) (hl : l.phrase.Canonical)
    (hSteps : ∀ step ∈ steps, step.2.Canonical) (hAdmits : AdmitsEach l.position steps a) :
    ∃ b, (substituteTerms steps a).result = .ok b ∧
      ∀ done T R rest, steps = done ++ (T, R) :: rest →
        ∃ c, (substituteTerms done a).result = .ok c ∧ c.Safe T R := by
  induction steps generalizing a l with
  | nil => exact ⟨a, rfl, fun done T R rest hNil => by simp at hNil⟩
  | cons step steps ih =>
    obtain ⟨T, R⟩ := step
    have hR : R.Canonical := hSteps (T, R) List.mem_cons_self
    obtain ⟨count, b, u, hRun, hb, -, hEncoding⟩ := h.substitute_settled (T := T) hl hR
    have hFirst (steps) :
        (Arena.substituteTerms ((T, R) :: steps) a).result =
          (Arena.substituteTerms steps b).result := by
      rw [Arena.substituteTerms, Run.result_bind, hRun, Run.ok_bind]
    -- After the last step nothing is left to be done; before it the replacement fits.
    obtain ⟨c, hRest, hLater⟩ : ∃ c, (Arena.substituteTerms steps b).result = .ok c ∧
        ∀ done T R rest, steps = done ++ (T, R) :: rest →
          ∃ c, (Arena.substituteTerms done b).result = .ok c ∧ c.Safe T R := by
      cases steps with
      | nil => exact ⟨b, rfl, fun done T R rest hNil => by simp at hNil⟩
      | cons next steps =>
        obtain ⟨hFits, hRest⟩ := hAdmits
        obtain ⟨hFaithful, hCanonical, hPosition⟩ := hEncoding (hFits _ (h.decode hl))
        refine ih ⟨u, hb, rfl, hFaithful⟩ hCanonical
          (fun s hs => hSteps s (List.mem_cons_of_mem _ hs)) ?_
        rw [hPosition]
        exact hRest _ hRun
    refine ⟨c, (hFirst steps).trans hRest, fun done T' R' rest hSplit => ?_⟩
    cases done with
    | nil =>
      obtain ⟨⟨rfl, rfl⟩, rfl⟩ : (T = T' ∧ R = R') ∧ steps = rest := by simpa using hSplit
      exact ⟨a, rfl, h.safe hl hR⟩
    | cons first done =>
      rw [List.cons_append, List.cons.injEq] at hSplit
      obtain ⟨rfl, hSplit⟩ := hSplit
      obtain ⟨c, hDone, hSafe⟩ := hLater done T' R' rest hSplit
      exact ⟨c, (hFirst done).trans hDone, hSafe⟩

/-- A sequence of substitutions of terms of any categories in the encoding of a phrase never fails
and is safe all along, when every replacement but the last one fits at its turn. -/
theorem substituteTerms_never_fails {p : Phrase} (hp : p.Canonical) (position : Option Position)
    (hSteps : ∀ step ∈ steps, step.2.Canonical)
    (hAdmits : ∀ start, ofPhrase p position = .ok start → AdmitsEach position steps start) :
    ∃ start a, ofPhrase p position = .ok start ∧ (substituteTerms steps start).result = .ok a ∧
      ∀ done T R rest, steps = done ++ (T, R) :: rest →
        ∃ b, (substituteTerms done start).result = .ok b ∧ b.Safe T R := by
  obtain ⟨start, hStart, hEncodes⟩ := ofPhrase_encodes p position
  obtain ⟨a, hRun, hSafe⟩ := hEncodes.substituteTerms hp hSteps (hAdmits start hStart)
  exact ⟨start, a, hStart, hRun, hSafe⟩

/-- A property, a datatype and an individual are replaced where they fit, and last a property where
it does not. -/
theorem substituteTerms_never_fails_mixed :
    let p : Phrase := .ofClass (.combine .intersection [
      .quantified .existential (.inverse ⟨"r"⟩) (.enumerate [.named ⟨"a"⟩, .named ⟨"b"⟩]),
      .dataQuantified .universal ⟨"d"⟩ (.restrict ⟨"t"⟩ [⟨⟨"f"⟩, .plain "v"⟩])])
    let steps : List (Term × Term) := [
      (.individual (.named ⟨"a"⟩), .individual (.named ⟨"b"⟩)),
      (.dataRange (.datatype ⟨"t"⟩), .dataRange (.datatype ⟨"u"⟩)),
      (.objectProperty (.named ⟨"r"⟩), .objectProperty (.inverse ⟨"s"⟩))]
    p.Canonical ∧ (∀ step ∈ steps, step.2.Canonical) ∧
    (∀ start, ofPhrase p none = .ok start → AdmitsEach none steps start) ∧
    ∃ start a, ofPhrase p none = .ok start ∧ (substituteTerms steps start).result = .ok a ∧
      (∀ done T R rest, steps = done ++ (T, R) :: rest →
        ∃ b, (substituteTerms done start).result = .ok b ∧ b.Safe T R) ∧
      a.decode = .ok (.ofClass (.combine .intersection [
        .quantified .existential (.inverse ⟨"s"⟩) (.enumerate [.named ⟨"b"⟩]),
        .dataQuantified .universal ⟨"d"⟩ (.restrict ⟨"u"⟩ [⟨⟨"f"⟩, .plain "v"⟩])])) := by
  intro p steps
  have hp : p.Canonical := by decide +kernel
  have hSteps : ∀ step ∈ steps, step.2.Canonical := by
    intro step hStep
    rcases List.mem_cons.1 hStep with rfl | hStep
    · trivial
    rcases List.mem_pair.1 hStep with rfl | rfl
    · rfl
    · trivial
  have hAdmits : ∀ start, ofPhrase p none = .ok start → AdmitsEach none steps start := by
    decide +kernel
  obtain ⟨start, a, hStart, hRun, hSafe⟩ := substituteTerms_never_fails hp none hSteps hAdmits
  have hResult : ∀ start, ofPhrase p none = .ok start →
      ∀ a, (substituteTerms steps start).result = .ok a →
        a.decode = .ok (.ofClass (.combine .intersection [
          .quantified .existential (.inverse ⟨"s"⟩) (.enumerate [.named ⟨"b"⟩]),
          .dataQuantified .universal ⟨"d"⟩ (.restrict ⟨"u"⟩ [⟨⟨"f"⟩, .plain "v"⟩])])) := by
    decide +kernel
  exact ⟨hp, hSteps, hAdmits, start, a, hStart, hRun, hSafe, hResult start hStart a hRun⟩

/-- An inverse property that does not fit is put below an inverse property, so that two nodes hold
the same property, one below the other. Replacing the upper one removes the lower one, which is
not found when its turn comes. -/
theorem substituteTerms_fails_nested :
    let p : Phrase := .ofClass (.quantified .existential (.inverse ⟨"r"⟩) (.named ⟨"C"⟩))
    let steps : List (Term × Term) := [
      (.objectProperty (.named ⟨"r"⟩), .objectProperty (.inverse ⟨"s"⟩)),
      (.objectProperty (.inverse ⟨"s"⟩), .objectProperty (.named ⟨"t"⟩))]
    p.Canonical ∧ (∀ step ∈ steps, step.2.Canonical) ∧
    ∃ start, ofPhrase p none = .ok start ∧
      (substituteTerms steps start).result = .error (.missingNode 3) := by
  intro p steps
  refine ⟨by decide +kernel, fun step hStep => ?_, ?_⟩
  · rcases List.mem_pair.1 hStep with rfl | rfl <;> trivial
  obtain ⟨start, hStart, -⟩ := ofPhrase_encodes p none
  have hRun : (ofPhrase p none >>= fun start => (substituteTerms steps start).result >>= fun _ =>
      .ok ()) = .error (.missingNode 3) := by
    decide +kernel
  rw [hStart, Run.ok_bind] at hRun
  refine ⟨start, hStart, ?_⟩
  cases hResult : (substituteTerms steps start).result with
  | ok a =>
    rw [hResult] at hRun
    cases hRun
  | error fault =>
    rw [hResult] at hRun
    exact congrArg Except.error (Except.error.inj hRun)

end Arena

end OntoFold
