/-!
# The lexical level of TOML

Blanks, comments, keys and strings. A parser takes characters from the front of a text and
fails without a result.
-/

namespace OntoFold.Toml

abbrev Parser (α : Type) : Type := StateT (List Char) Option α

namespace Parser

/-- What is still to be read. -/
def remaining : Parser (List Char) := get

/-- Takes a character that satisfies a condition. -/
def satisfy (p : Char → Bool) : Parser Char := fun
  | c :: cs => if p c then some (c, cs) else none
  | [] => none

/-- Takes a given character. -/
def char (c : Char) : Parser Unit := do discard (satisfy (· = c))

/-- Takes given characters. -/
def chars : List Char → Parser Unit
  | [] => return
  | c :: cs => do
    char c
    chars cs

/-- Takes characters as long as they satisfy a condition. -/
def many (p : Char → Bool) : Parser (List Char) := fun cs =>
  some (cs.takeWhile p, cs.dropWhile p)

/-- Takes at least one character that satisfies a condition. -/
def many1 (p : Char → Bool) : Parser (List Char) := do
  let c ← satisfy p
  return c :: (← many p)

/-- Takes a number of characters that satisfy a condition. -/
def exactly (n : Nat) (p : Char → Bool) : Parser (List Char) :=
  match n with
  | 0 => return []
  | n + 1 => do
    let c ← satisfy p
    return c :: (← exactly n p)

/-- Takes what a parser takes if it succeeds. -/
def maybe {α : Type} (p : Parser α) : Parser (Option α) := (some <$> p) <|> pure none

/-- The characters a parser takes. -/
def spelled {α : Type} (p : Parser α) : Parser (List Char) := do
  let before ← remaining
  discard p
  return before.take (before.length - (← remaining).length)

end Parser

open OntoFold.Toml.Parser

/-! ## Blanks and comments -/

def isBlank (c : Char) : Bool := c = ' ' || c = '\t'

/-- The characters that may stand in comments and, apart from quotes and backslashes, in
strings on one line. -/
def isVisible (c : Char) : Bool := c = '\t' || (0x20 ≤ c.toNat && c.toNat ≠ 0x7f)

def blanks : Parser Unit := do discard (many isBlank)

def newline : Parser Unit := chars ['\n'] <|> chars ['\r', '\n']

/-- The end of a line or of the text. -/
def lineEnd : Parser Unit := fun
  | [] => some ((), [])
  | cs => newline cs

def comment : Parser Unit := do
  char '#'
  discard (many isVisible)

/-- What may follow a complete line. -/
def lineRest : Parser Unit := do
  blanks
  discard (maybe comment)
  lineEnd

/-- Skips blanks, line ends and comments, where a comment runs to the end of its line. -/
def skipGap (inComment : Bool) : List Char → Option (List Char)
  | [] => if inComment then none else some []
  | '\n' :: cs => skipGap false cs
  | '\r' :: '\n' :: cs => skipGap false cs
  | c :: cs =>
    if inComment then if isVisible c then skipGap true cs else none
    else if isBlank c then skipGap false cs
    else if c = '#' then skipGap true cs
    else some (c :: cs)

/-- The space between the parts of an array. -/
def gap : Parser Unit := fun cs => (skipGap false cs).map fun rest => ((), rest)

/-! ## Strings -/

/-- The value of a hexadecimal digit. -/
def hexValue? (c : Char) : Option Nat :=
  if c.isDigit then some (c.toNat - '0'.toNat)
  else if 'a' ≤ c ∧ c ≤ 'f' then some (c.toNat - 'a'.toNat + 10)
  else if 'A' ≤ c ∧ c ≤ 'F' then some (c.toNat - 'A'.toNat + 10)
  else none

/-- The character with a code point in hexadecimal digits. -/
def codePoint? (digits : List Char) : Option Char := do
  let values ← digits.mapM hexValue?
  let n := values.foldl (fun n d => 16 * n + d) 0
  if h : n.isValidChar then some (Char.ofNatAux n h)
  else none

/-- The character a letter stands for after a backslash. -/
def escape? (c : Char) : Option Char :=
  [('b', '\x08'), ('t', '\t'), ('n', '\n'), ('f', '\x0c'), ('r', '\r'), ('"', '"'),
    ('\\', '\\')].lookup c

/-- The rest of a string between single double quotes: its characters and what follows. -/
def basicRest : List Char → Option (List Char × List Char)
  | [] => none
  | '"' :: cs => some ([], cs)
  | '\\' :: 'u' :: a :: b :: c :: d :: cs => do
    let x ← codePoint? [a, b, c, d]
    let (s, rest) ← basicRest cs
    return (x :: s, rest)
  | '\\' :: 'U' :: a :: b :: c :: d :: e :: f :: g :: h :: cs => do
    let x ← codePoint? [a, b, c, d, e, f, g, h]
    let (s, rest) ← basicRest cs
    return (x :: s, rest)
  | '\\' :: c :: cs => do
    let x ← escape? c
    let (s, rest) ← basicRest cs
    return (x :: s, rest)
  | c :: cs =>
    if isVisible c && c ≠ '\\' then do
      let (s, rest) ← basicRest cs
      return (c :: s, rest)
    else none

/-- Where a long string stands: among its characters, after a backslash at the end of a line
but still on it, or on a later line, before the next character. -/
inductive LongMode where
  | text
  | lineBreak
  | indent
  deriving DecidableEq

/-- The rest of a string between triple double quotes. Up to two quotes may precede the closing
ones. A backslash at the end of a line removes the space up to the next character. -/
def longBasicRest : LongMode → List Char → Option (List Char × List Char)
  | .lineBreak, ' ' :: cs => longBasicRest .lineBreak cs
  | .lineBreak, '\t' :: cs => longBasicRest .lineBreak cs
  | .lineBreak, '\n' :: cs => longBasicRest .indent cs
  | .lineBreak, '\r' :: '\n' :: cs => longBasicRest .indent cs
  | .lineBreak, _ => none
  | .indent, ' ' :: cs => longBasicRest .indent cs
  | .indent, '\t' :: cs => longBasicRest .indent cs
  | .indent, '\n' :: cs => longBasicRest .indent cs
  | .indent, '\r' :: '\n' :: cs => longBasicRest .indent cs
  | _, [] => none
  | _, '"' :: '"' :: '"' :: '"' :: '"' :: cs => some (['"', '"'], cs)
  | _, '"' :: '"' :: '"' :: '"' :: cs => some (['"'], cs)
  | _, '"' :: '"' :: '"' :: cs => some ([], cs)
  | _, '\\' :: 'u' :: a :: b :: c :: d :: cs => do
    let x ← codePoint? [a, b, c, d]
    let (s, rest) ← longBasicRest .text cs
    return (x :: s, rest)
  | _, '\\' :: 'U' :: a :: b :: c :: d :: e :: f :: g :: h :: cs => do
    let x ← codePoint? [a, b, c, d, e, f, g, h]
    let (s, rest) ← longBasicRest .text cs
    return (x :: s, rest)
  | _, '\\' :: '\n' :: cs => longBasicRest .indent cs
  | _, '\\' :: '\r' :: '\n' :: cs => longBasicRest .indent cs
  | _, '\\' :: c :: cs =>
    if isBlank c then longBasicRest .lineBreak cs
    else do
      let x ← escape? c
      let (s, rest) ← longBasicRest .text cs
      return (x :: s, rest)
  | _, '\r' :: '\n' :: cs => do
    let (s, rest) ← longBasicRest .text cs
    return ('\n' :: s, rest)
  | _, c :: cs =>
    if (isVisible c || c = '\n') && c ≠ '\\' then do
      let (s, rest) ← longBasicRest .text cs
      return (c :: s, rest)
    else none

/-- The rest of a string between single quotes, which has no escapes. -/
def literalRest : List Char → Option (List Char × List Char)
  | [] => none
  | '\'' :: cs => some ([], cs)
  | c :: cs =>
    if isVisible c then do
      let (s, rest) ← literalRest cs
      return (c :: s, rest)
    else none

/-- The rest of a string between triple single quotes. -/
def longLiteralRest : List Char → Option (List Char × List Char)
  | [] => none
  | '\'' :: '\'' :: '\'' :: '\'' :: '\'' :: cs => some (['\'', '\''], cs)
  | '\'' :: '\'' :: '\'' :: '\'' :: cs => some (['\''], cs)
  | '\'' :: '\'' :: '\'' :: cs => some ([], cs)
  | '\r' :: '\n' :: cs => do
    let (s, rest) ← longLiteralRest cs
    return ('\n' :: s, rest)
  | c :: cs =>
    if isVisible c || c = '\n' then do
      let (s, rest) ← longLiteralRest cs
      return (c :: s, rest)
    else none

/-- Drops the line end right after opening triple quotes. -/
def dropNewline : List Char → List Char
  | '\n' :: cs => cs
  | '\r' :: '\n' :: cs => cs
  | cs => cs

/-- A string on one line. -/
def shortString : Parser String := fun cs => do
  let (s, rest) ← match cs with
    | '"' :: cs => basicRest cs
    | '\'' :: cs => literalRest cs
    | _ => none
  return (String.ofList s, rest)

def string : Parser String := fun
  | '"' :: '"' :: '"' :: cs => do
    let (s, rest) ← longBasicRest .text (dropNewline cs)
    return (String.ofList s, rest)
  | '\'' :: '\'' :: '\'' :: cs => do
    let (s, rest) ← longLiteralRest (dropNewline cs)
    return (String.ofList s, rest)
  | cs => shortString cs

/-! ## Keys -/

/-- The characters of a key without quotes. -/
def isBare (c : Char) : Bool := c.isAlphanum || c = '_' || c = '-'

/-- One part of a key. -/
def simpleKey : Parser String := shortString <|> (String.ofList <$> many1 isBare)

/-- The parts of a key after the first one. -/
def keyRest : Nat → Parser (List String)
  | 0 => return []
  | fuel + 1 => do
    blanks
    match ← remaining with
    | '.' :: cs =>
      set cs
      blanks
      let part ← simpleKey
      return part :: (← keyRest fuel)
    | _ => return []

/-- How many parts a key may have, and how deep values may be nested. -/
def maxDepth : Nat := 127

/-- A key of one or more parts with dots between them; blanks may surround every part. -/
def key : Parser (List String) := do
  blanks
  let part ← simpleKey
  let parts ← keyRest (← remaining).length
  if parts.length < maxDepth then return part :: parts else failure

end OntoFold.Toml
