import OntoFold.Toml.Scalar

/-!
# TOML documents

Arrays, inline tables and the lines of a document: comments, keys with values, and headers of
tables and of elements of arrays of tables. Arrays and inline tables may be nested up to
`maxDepth` levels.

The main definition is `Toml.parse`.
-/

namespace OntoFold.Toml

open OntoFold.Toml.Parser

/-! ## Arrays and inline tables -/

mutual

/-- A value, with at most the given number of levels of brackets and braces. Every level takes
from the fuel, and so does every item. -/
def value (levels : Nat) : Nat → Parser Value
  | 0 => failure
  | fuel + 1 => do
    match ← remaining, levels with
    | '[' :: cs, levels + 1 =>
      set cs
      return .array (← items levels fuel)
    | '\x7b' :: cs, levels + 1 =>
      set cs
      blanks
      match ← remaining with
      | '\x7d' :: cs =>
        set cs
        return .inline []
      | _ => return .inline (← pairs levels fuel [])
    | _, _ => scalar

/-- The items of an array up to its closing bracket. -/
def items (levels : Nat) : Nat → Parser (List Value)
  | 0 => failure
  | fuel + 1 => do
    gap
    match ← remaining with
    | ']' :: cs =>
      set cs
      return []
    | _ =>
      let v ← value levels fuel
      gap
      match ← remaining with
      | ',' :: cs =>
        set cs
        return v :: (← items levels fuel)
      | ']' :: cs =>
        set cs
        return [v]
      | _ => failure

/-- The keys and values of an inline table up to its closing brace, added to the given ones. -/
def pairs (levels : Nat) : Nat → Entries → Parser Entries
  | 0, _ => failure
  | fuel + 1, entries => do
    let path ← key
    char '='
    blanks
    let v ← value levels fuel
    blanks
    let some entries := entries.defineInline (path.getLastD "") v path.dropLast
      | failure
    match ← remaining with
    | ',' :: cs =>
      set cs
      pairs levels fuel entries
    | '\x7d' :: cs =>
      set cs
      return entries
    | _ => failure

end

/-! ## Lines -/

/-- A document so far: its entries and the path of the table the last header opened. -/
structure Document where
  entries : Entries := []
  current : List String := []

namespace Document

/-- Reads a header after its first bracket. -/
def headerLine (d : Document) : Parser Document := do
  let (isElement, path) ← (do
    char '['
    let path ← key
    chars [']', ']']
    return (true, path)) <|> (do
    let path ← key
    char ']'
    return (false, path))
  lineRest
  let enter := if isElement then Entries.openElement else Entries.openTable
  let some entries := enter path.dropLast (path.getLastD "") d.entries
    | failure
  return ⟨entries, path⟩

/-- Reads a key with its value. -/
def keyLine (d : Document) : Parser Document := do
  let path ← key
  char '='
  blanks
  let v ← value maxDepth (2 * (← remaining).length + 2)
  lineRest
  let some entries := Entries.descend .implied
      (Entries.define path.dropLast (path.getLastD "") v) d.current .header d.entries
    | failure
  return { d with entries := entries }

/-- Reads lines to the end of the text; every line has at least one character. -/
def lines : Nat → Document → Parser Document
  | 0, d => return d
  | fuel + 1, d => do
    blanks
    match ← remaining with
    | [] => return d
    | '#' :: _ =>
      lineRest
      lines fuel d
    | '[' :: cs =>
      set cs
      lines fuel (← d.headerLine)
    | '\n' :: _ | '\r' :: _ =>
      newline
      lines fuel d
    | _ => lines fuel (← d.keyLine)

end Document

/-- The entries of a document; a byte order mark may precede it. -/
def parse (source : String) : Option Entries :=
  let cs := match source.toList with
    | '\ufeff' :: cs => cs
    | cs => cs
  ((Document.lines (cs.length + 1) {}).run' cs).map Document.entries

end OntoFold.Toml
