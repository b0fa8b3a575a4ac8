import OntoFold.Options.Arguments
import OntoFold.Toml.Document

/-!
# Options in a document

Options are read from the top-level keys of a TOML document. Absent keys keep their defaults,
other keys are ignored, and the names of discovered symbols must not begin with nothing.

The main definition is `Options.ofToml`.
-/

namespace OntoFold

inductive DocumentError where
  /-- The text is no document, or an option has a value of the wrong type. -/
  | invalid
  /-- The stem of symbols is empty. -/
  | emptyStem
  deriving DecidableEq, Repr

def DocumentError.message : DocumentError → String
  | .invalid => "invalid macrofication options"
  | .emptyStem => "macro namespace must not be empty"

namespace Options

/-- Sets an option to a value of a document. -/
def setValue (o : Options) (name : OptionName) (v : Toml.Value) : Except DocumentError Options :=
  match name, v with
  | .stem, .string s => .ok { o with stem := s }
  | .stem, _ => .error .invalid
  | name, .integer (.ofNat n) => .ok (o.setNumber name n)
  | _, _ => .error .invalid

/-- The options given by a document. -/
def ofToml (source : String) : Except DocumentError Options := do
  let some entries := Toml.parse source
    | .error .invalid
  let o ← OptionName.all.foldlM (fun (o : Options) name =>
    match entries.lookup name.key with
    | some v => o.setValue name v
    | none => .ok o) {}
  if o.stem.isEmpty then .error .emptyStem else .ok o

end Options

end OntoFold
