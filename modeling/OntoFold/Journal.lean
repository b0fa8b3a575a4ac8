import OntoFold.Fault

/-!
# Runs that keep a journal

A run ends with a value or a fault and leaves the messages it reported, in order. A fault
ends a run but keeps the messages reported before it.

* `Run.result_bind`: messages never influence the result.
-/

namespace OntoFold

inductive Level where
  | debug
  | info
  | warn
  deriving DecidableEq, Repr

def Level.name : Level → String
  | .debug => "DEBUG"
  | .info => "INFO"
  | .warn => "WARN"

structure Message where
  level : Level
  text : String
  deriving DecidableEq, Repr

/-- A computation that reports messages and may fail. -/
structure Run (α : Type u) where
  result : Except Fault α
  messages : List Message

namespace Run

variable {α β γ : Type u}

@[ext] theorem ext {x y : Run α} (hResult : x.result = y.result)
    (hMessages : x.messages = y.messages) : x = y := by
  cases x; cases y; simp_all

instance : Monad Run where
  pure a := ⟨.ok a, []⟩
  bind x f :=
    match x with
    | ⟨.ok a, messages⟩ => ⟨(f a).result, messages ++ (f a).messages⟩
    | ⟨.error fault, messages⟩ => ⟨.error fault, messages⟩

instance : MonadLift (Except Fault) Run := ⟨fun x => ⟨x, []⟩⟩

/-- Reports a message. -/
def report (level : Level) (text : String) : Run PUnit := ⟨.ok ⟨⟩, [⟨level, text⟩]⟩

@[simp] theorem result_pure (a : α) : (pure a : Run α).result = .ok a := rfl

@[simp] theorem messages_pure (a : α) : (pure a : Run α).messages = [] := rfl

@[simp] theorem result_bind (x : Run α) (f : α → Run β) :
    (x >>= f).result = x.result >>= fun a => (f a).result := by
  rcases x with ⟨_ | _, _⟩ <;> rfl

instance : LawfulMonad Run :=
  LawfulMonad.mk' Run
    (fun x => by rcases x with ⟨_ | _, _⟩ <;> simp [Functor.map])
    (fun a f => by simp [bind, pure])
    (fun x f g => by
      rcases x with ⟨_ | a, _⟩
      · rfl
      · simp only [bind]
        rcases h : f a with ⟨_ | _, _⟩ <;> simp)

end Run

end OntoFold
