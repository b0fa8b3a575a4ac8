import OntoFold.Options.Basic

/-!
# Options as command-line words

Every option is a flag of two dashes that takes one value, as the next word or after an equals
sign. The words are read from left to right and the first error decides. A value after an
equals sign is entered at once; a value in a word of its own is entered when the next known
flag or the end is met, so an unknown word that follows it is found before a flaw of the value.

The main definition is `Options.ofArguments`.
-/

namespace OntoFold

/-- What is wrong with a list of words. -/
inductive ArgumentError where
  /-- A word is no flag, or a flag that does not exist. -/
  | unknown
  /-- A flag has no value. -/
  | missingValue
  /-- A value is no number within the bounds. -/
  | notANumber
  /-- A flag is given twice. -/
  | repeated
  /-- A value is given to a flag that takes none. -/
  | unwantedValue
  /-- The words ask for an explanation. -/
  | help
  deriving DecidableEq, Repr

/-- The names of the options. -/
inductive OptionName where
  | contraction
  | declaredDefinition
  | discoveredDefinition
  | symbolSize
  | symbolOccurrences
  | stem
  deriving DecidableEq, Repr

namespace OptionName

def all : List OptionName :=
  [contraction, declaredDefinition, discoveredDefinition, symbolSize, symbolOccurrences, stem]

/-- The words of a name. -/
def words : OptionName → List String
  | contraction => ["contraction", "threshold"]
  | declaredDefinition => ["explicit", "definition", "threshold"]
  | discoveredDefinition => ["implicit", "definition", "threshold"]
  | symbolSize => ["min", "macro", "size"]
  | symbolOccurrences => ["min", "occurrences"]
  | stem => ["macro", "namespace"]

/-- The flag of an option, without its dashes. -/
def flag (name : OptionName) : String := String.intercalate "-" name.words

/-- The key of an option in a document. -/
def key (name : OptionName) : String := String.intercalate "_" name.words

def ofFlag? (word : String) : Option OptionName := all.find? fun name => name.flag = word

end OptionName

namespace Options

/-- Sets an option to a number; the stem of symbols is not one. -/
def setNumber (o : Options) (name : OptionName) (n : Nat) : Options :=
  match name with
  | .contraction => { o with contraction := n }
  | .declaredDefinition => { o with declaredDefinition := n }
  | .discoveredDefinition => { o with discoveredDefinition := n }
  | .symbolSize => { o with symbolSize := n }
  | .symbolOccurrences => { o with symbolOccurrences := n }
  | .stem => o

end Options

/-! ## Recognising words -/

/-- What a word is by its spelling. -/
inductive Word where
  /-- Two dashes alone: what follows is not an option. -/
  | separator
  /-- A name after two dashes, perhaps with a value after an equals sign. -/
  | long (name : String) (value : Option String)
  /-- Letters after one dash. -/
  | short (letters : List Char)
  | plain

namespace Word

/-- The value after the first equals sign, if there is one. -/
def valueAfterEquals : List Char → Option String
  | [] => none
  | c :: cs => if c = '=' then some (String.ofList cs) else valueAfterEquals cs

def ofString (s : String) : Word :=
  match s.toList with
  | ['-', '-'] => .separator
  | '-' :: '-' :: cs => .long (String.ofList (cs.takeWhile (· ≠ '='))) (valueAfterEquals cs)
  | '-' :: c :: cs => .short (c :: cs)
  | _ => .plain

end Word

/-! ## Reading values -/

/-- The bound of all numbers: they fit into 64 bits. -/
def maxNumber : Nat := 18446744073709551615

/-- The value of a list of digits; a lone sign or an empty list has none. -/
def digitsToNat? (cs : List Char) : Option Nat :=
  if cs.isEmpty || cs.any (!·.isDigit) then none
  else some (cs.foldl (fun n c => 10 * n + (c.toNat - '0'.toNat)) 0)

/-- A number: digits, perhaps after a plus sign, with a bounded value. -/
def readNumber (s : String) : Option Nat := do
  let n ← digitsToNat? (match s.toList with
    | '+' :: cs => cs
    | cs => cs)
  if n ≤ maxNumber then some n else none

/-- Sets an option to the value of a word. -/
def Options.setWord (o : Options) (name : OptionName) (value : String) :
    Except ArgumentError Options :=
  if name = .stem then
    .ok { o with stem := value }
  else
    match readNumber value with
    | some n => .ok (o.setNumber name n)
    | none => .error .notANumber

/-! ## Reading words -/

/-- The state of reading words: the options entered so far with their names, and the option
whose value is still to be entered, with the value if it has been read. -/
structure Scan where
  options : Options := {}
  entered : List OptionName := []
  pending : Option (OptionName × Option String) := none

namespace Scan

/-- Enters the value of an option, which must not have one yet. -/
def enter (scan : Scan) (name : OptionName) (value : String) : Except ArgumentError Scan :=
  if name ∈ scan.entered then .error .repeated
  else do
    let options ← scan.options.setWord name value
    return { scan with options := options, entered := name :: scan.entered }

/-- Enters the value that is still to be entered. -/
def settle (scan : Scan) : Except ArgumentError Scan :=
  match scan.pending with
  | none => .ok scan
  | some (_, none) => .error .missingValue
  | some (name, some value) => { scan with pending := none }.enter name value

/-- Reads a word as the value an option waits for. -/
def plainWord (scan : Scan) (word : String) : Except ArgumentError Scan :=
  match scan.pending with
  | some (name, none) => .ok { scan with pending := some (name, some word) }
  | _ => .error .unknown

/-- Reads a name after two dashes. -/
def longWord (scan : Scan) (name : String) (value : Option String) : Except ArgumentError Scan :=
  match OptionName.ofFlag? name, value with
  | some option, some value => do (← scan.settle).enter option value
  | some option, none => return { ← scan.settle with pending := some (option, none) }
  | none, some _ => .error (if name = "help" then .unwantedValue else .unknown)
  | none, none => if name = "help" then do _ ← scan.settle; .error .help else .error .unknown

/-- Reads words to the end. -/
def words : Scan → List String → Except ArgumentError Scan
  | scan, [] => scan.settle
  | scan, word :: rest =>
    match Word.ofString word with
    | .separator => if rest.isEmpty then scan.settle else .error .unknown
    | .long name value => do words (← scan.longWord name value) rest
    | .short ('h' :: _) => do _ ← scan.settle; .error .help
    | .short _ => .error .unknown
    | .plain => do words (← scan.plainWord word) rest

end Scan

/-- The options given by command-line words. -/
def Options.ofArguments (words : List String) : Except ArgumentError Options :=
  (Scan.words {} words).map Scan.options

end OntoFold
