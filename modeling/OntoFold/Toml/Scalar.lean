import OntoFold.Toml.Lexical
import OntoFold.Toml.Value

/-!
# TOML numbers, dates and times

Integers in four bases, floats, dates and times. Underscores may stand between digits. An
integer fits into 64 bits with its sign, and a positive float must not be too large.
-/

namespace OntoFold.Toml

open OntoFold.Toml.Parser

/-! ## Integers -/

/-- The rest of a run of digits, with an underscore between digits here and there. -/
def digitRun (isDigit : Char → Bool) : List Char → List Char × List Char
  | '_' :: c :: cs =>
    if isDigit c then
      let (ds, rest) := digitRun isDigit cs
      (c :: ds, rest)
    else ([], '_' :: c :: cs)
  | c :: cs =>
    if isDigit c then
      let (ds, rest) := digitRun isDigit cs
      (c :: ds, rest)
    else ([], c :: cs)
  | [] => ([], [])

/-- Digits, of which the first follows no underscore. -/
def digits (isDigit : Char → Bool) : Parser (List Char) := do
  let c ← satisfy isDigit
  let (cs, rest) := digitRun isDigit (← remaining)
  set rest
  return c :: cs

def natOfDigits (base : Nat) (ds : List Char) : Nat :=
  ds.foldl (fun n c => base * n + (hexValue? c).getD 0) 0

/-- A sign, if there is one; whether it is a minus sign. -/
def sign : Parser Bool := do
  match ← remaining with
  | '+' :: cs =>
    set cs
    return false
  | '-' :: cs =>
    set cs
    return true
  | _ => return false

/-- The digits of a decimal integer: a zero alone, or digits that do not begin with zero. -/
def decimalDigits : Parser (List Char) := do
  match ← remaining with
  | '0' :: cs =>
    set cs
    return ['0']
  | _ => digits Char.isDigit

/-- The largest integer. -/
def maxInteger : Nat := 9223372036854775807

/-- The integer with a sign and an absolute value, if it is within the bounds. -/
def boundedInteger (negative : Bool) (n : Nat) : Parser Value :=
  if negative then
    if n ≤ maxInteger + 1 then return .integer (-n) else failure
  else
    if n ≤ maxInteger then return .integer n else failure

/-- Digits of a base after a zero and the letter of the base. -/
def basedInteger (letter : Char) (base : Nat) : Parser Value := do
  chars ['0', letter]
  let ds ← digits fun c => (hexValue? c).any (· < base)
  boundedInteger false (natOfDigits base ds)

def decimalInteger : Parser Value := do
  let negative ← sign
  boundedInteger negative (natOfDigits 10 (← decimalDigits))

def integer : Parser Value :=
  basedInteger 'x' 16 <|> basedInteger 'o' 8 <|> basedInteger 'b' 2 <|> decimalInteger

/-! ## Floats -/

/-- Whether digits times a power of ten round to more than the largest double: half a unit in
the last place above it, or further. -/
def overflows (digits : Nat) (exponent : Int) : Bool :=
  let size : Int := (Nat.toDigits 10 digits).length + exponent
  if digits = 0 then false
  else if 310 < size then true
  else if size < 300 then false
  else
    let limit := Nat.pow 2 1024 - Nat.pow 2 970
    if 0 ≤ exponent then limit ≤ digits * Nat.pow 10 exponent.toNat
    else limit * Nat.pow 10 (-exponent).toNat ≤ digits

/-- The exponent of a float, after its letter. -/
def exponent : Parser Int := do
  discard (satisfy fun c => c = 'e' || c = 'E')
  let negative ← sign
  let n := natOfDigits 10 (← digits Char.isDigit)
  return if negative then -n else n

/-- The digits of a float after the point. -/
def fraction : Parser (List Char) := do
  char '.'
  digits Char.isDigit

/-- A float with a fraction, an exponent or both. -/
def decimalFloat : Parser Unit := do
  let negative ← sign
  let whole ← decimalDigits
  let (frac, exp) ←
    (do return ([], ← exponent)) <|>
    (do return (← fraction, (← maybe exponent).getD 0))
  if !negative && overflows (natOfDigits 10 (whole ++ frac)) (exp - frac.length) then
    failure

/-- The floats that are no numbers on the line. -/
def specialFloat : Parser Unit := do
  discard sign
  chars ['i', 'n', 'f'] <|> chars ['n', 'a', 'n']

def float : Parser Value :=
  (Value.float ∘ String.ofList) <$> spelled (decimalFloat <|> specialFloat)

/-! ## Dates and times -/

/-- A number of two digits between bounds. -/
def twoDigits (low high : Nat) : Parser Unit := do
  let n := natOfDigits 10 (← exactly 2 Char.isDigit)
  if n < low || high < n then
    failure

def date : Parser Unit := do
  discard (exactly 4 Char.isDigit)
  char '-'
  twoDigits 1 12
  char '-'
  twoDigits 1 31

def time : Parser Unit := do
  twoDigits 0 23
  char ':'
  twoDigits 0 59
  char ':'
  twoDigits 0 60
  discard (maybe (do char '.'; many1 Char.isDigit))

def offset : Parser Unit :=
  discard (satisfy fun c => c = 'Z' || c = 'z') <|> do
    discard (satisfy fun c => c = '+' || c = '-')
    twoDigits 0 23
    char ':'
    twoDigits 0 59

def dateTime : Parser Value :=
  let afterDate : Parser Unit := do
    discard (satisfy fun c => c = 'T' || c = 't' || c = ' ')
    time
    discard (maybe offset)
  (Value.dateTime ∘ String.ofList) <$> spelled
    ((do date; discard (maybe afterDate)) <|> time)

/-! ## All scalars -/

def boolean : Parser Value :=
  (do chars "true".toList; return .boolean true) <|>
  (do chars "false".toList; return .boolean false)

/-- A value that is neither an array nor a table. -/
def scalar : Parser Value :=
  (Value.string <$> string) <|> boolean <|> dateTime <|> float <|> integer

end OntoFold.Toml
