import Mathlib.Data.List.Forall2
import OntoFold.Journal

/-!
# Results of runs

The result of a run depends on the results of its steps only: sequences and loops of runs give
what the sequences and loops of the results give.

* `Run.result_mapM`, `Run.result_foldlM`: loops of runs.
* `mapM_eq_ok`: a loop succeeds when each step does.
-/

namespace OntoFold

namespace Run

variable {α β : Type}

@[simp] theorem result_liftM (x : Except Fault α) : (liftM x : Run α).result = x := rfl

@[simp] theorem result_report (level : Level) (text : String) :
    (report level text).result = .ok ⟨⟩ := rfl

@[simp] theorem ok_bind (a : α) (f : α → Except Fault β) : (Except.ok a >>= f) = f a := rfl

theorem bind_of_eq_ok {x : Except Fault α} {a : α} (h : x = .ok a) (f : α → Except Fault β) :
    (x >>= f) = f a := by
  rw [h, ok_bind]

/-- What a run that ends well did in its first step. -/
theorem bind_eq_ok {x : Except Fault α} {f : α → Except Fault β} {b : β}
    (h : (x >>= f) = .ok b) : ∃ a, x = .ok a ∧ f a = .ok b := by
  cases x with
  | error fault => cases h
  | ok a => exact ⟨a, rfl, h⟩

theorem result_mapM (f : α → Run β) (xs : List α) :
    (xs.mapM f).result = xs.mapM fun x => (f x).result := by
  induction xs with
  | nil => rfl
  | cons x xs ih =>
    rw [List.mapM_cons, List.mapM_cons, result_bind]
    congr 1
    funext y
    rw [result_bind, ih]
    rfl

theorem result_foldlM (f : β → α → Run β) (b : β) (xs : List α) :
    (xs.foldlM f b).result = xs.foldlM (fun b x => (f b x).result) b := by
  induction xs generalizing b with
  | nil => rfl
  | cons x xs ih =>
    rw [List.foldlM_cons, List.foldlM_cons, result_bind]
    congr 1
    funext c
    exact ih c

end Run

/-- What a result has to satisfy if there is one can be checked. -/
instance decidableForallOk {α : Type} {x : Except Fault α} {P : α → Prop} [DecidablePred P] :
    Decidable (∀ a, x = .ok a → P a) :=
  match x with
  | .ok a => decidable_of_iff (P a) ⟨fun h _ hEq => Except.ok.inj hEq ▸ h, fun h => h a rfl⟩
  | .error _ => isTrue fun _ hEq => nomatch hEq

theorem mapM_eq_ok {α : Type u} {β : Type v} {f : α → Except Fault β} {g : α → β} {xs : List α}
    (h : ∀ x ∈ xs, f x = .ok (g x)) : xs.mapM f = .ok (xs.map g) := by
  induction xs with
  | nil => rfl
  | cons x xs ih =>
    rw [List.mapM_cons, h x List.mem_cons_self,
      ih fun y hy => h y (List.mem_cons_of_mem _ hy)]
    rfl

/-- The outcomes of a loop that succeeds at each step are those of its steps. -/
theorem exists_mapM_eq_ok {α β : Type} {f : α → Except Fault β} {P : α → β → Prop} {xs : List α}
    (h : ∀ x ∈ xs, ∃ y, f x = .ok y ∧ P x y) :
    ∃ ys, xs.mapM f = .ok ys ∧ List.Forall₂ P xs ys := by
  induction xs with
  | nil => exact ⟨[], rfl, .nil⟩
  | cons x xs ih =>
    obtain ⟨y, hy, hP⟩ := h x List.mem_cons_self
    obtain ⟨ys, hRun, hRest⟩ := ih fun z hz => h z (List.mem_cons_of_mem _ hz)
    refine ⟨y :: ys, ?_, .cons hP hRest⟩
    rw [List.mapM_cons, hy, hRun]
    rfl

/-- A loop over the outcomes of another one. -/
theorem mapM_eq_ok_of_forall₂ {α : Type u} {β : Type v} {γ : Type w} {f : β → Except Fault γ}
    {g : α → γ} {xs : List α} {ys : List β}
    (h : List.Forall₂ (fun x y => f y = .ok (g x)) xs ys) : ys.mapM f = .ok (xs.map g) := by
  induction h with
  | nil => rfl
  | cons hy _ ih =>
    rw [List.mapM_cons, hy, ih]
    rfl

end OntoFold
