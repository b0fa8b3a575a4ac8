/-!
# TOML values and tables

The values a TOML document is made of, and the rules by which its lines define tables. A table
is opened by a header, by a header of one of its sub-tables, or by a dotted key; how it was
opened decides who may add to it.

* `Toml.Entries.descend`: follows a path of keys, opening tables on the way.
* `Toml.Entries.define`, `Toml.Entries.openTable`, `Toml.Entries.openElement`: what a key, a
  table header and an array header do. They fail where a key or a table is defined twice.
* `Toml.Entries.defineInline`: what a key between braces does.
-/

namespace OntoFold.Toml

/-- How a table was opened. -/
inductive Origin where
  /-- By a header of its own. -/
  | header
  /-- By the header of a table below it. -/
  | implied
  /-- By a dotted key. -/
  | dotted
  deriving DecidableEq, Repr

inductive Value where
  | string (s : String)
  | integer (n : Int)
  | boolean (b : Bool)
  /-- A float, by its text. -/
  | float (text : String)
  /-- A date, a time or both, by their text. -/
  | dateTime (text : String)
  | array (items : List Value)
  /-- A table between braces, to which only dotted keys between the same braces can add. -/
  | inline (entries : List (String × Value))
  | table (origin : Origin) (entries : List (String × Value))
  /-- An array of tables, which array headers extend. -/
  | tables (elements : List (List (String × Value)))

/-- The entries of a table, in the order of their definition. -/
abbrev Entries : Type := List (String × Value)

namespace Entries

/-- Gives a key a value in place of its old one, or at the end. -/
def put (key : String) (v : Value) : Entries → Entries
  | [] => [(key, v)]
  | (k, w) :: rest => if k = key then (k, v) :: rest else (k, w) :: put key v rest

/-- Changes the table at the end of a path. Missing tables are opened as `fresh`; keys that are
`dotted` may not enter a table that has a header. An array of tables is entered at its last
element. -/
def descend (fresh : Origin) (f : Origin → Entries → Option Entries) :
    List String → Origin → Entries → Option Entries
  | [], origin, entries => f origin entries
  | key :: path, _, entries =>
    match entries.lookup key with
    | none => do
      let below ← descend fresh f path fresh []
      return entries.put key (.table fresh below)
    | some (.table origin below) =>
      if fresh = .dotted ∧ origin = .header then none
      else do
        let below ← descend fresh f path origin below
        return entries.put key (.table origin below)
    | some (.tables elements) => do
      let below ← descend fresh f path .header (elements.getLastD [])
      return entries.put key (.tables (elements.dropLast ++ [below]))
    | some _ => none

/-- Defines a dotted key in a table. Its last part must be new, and the table it is in must have
been opened by dotted keys. -/
def define (path : List String) (key : String) (v : Value) (origin : Origin)
    (entries : Entries) : Option Entries :=
  descend .dotted (fun origin entries =>
    if (origin = .dotted) = path.isEmpty then none
    else if (entries.lookup key).isSome then none
    else some (entries.put key v)) path origin entries

/-- Defines a dotted key between braces. All tables there are open to it, but the last part of
the key must be new. -/
def defineInline (key : String) (v : Value) : List String → Entries → Option Entries
  | [], entries => if (entries.lookup key).isSome then none else some (entries.put key v)
  | part :: path, entries => do
    let below ← match entries.lookup part with
      | none => some []
      | some (.inline below) => some below
      | some _ => none
    return entries.put part (.inline (← defineInline key v path below))

/-- Opens a table below a path. A table that exists must have been implied. -/
def openTable (path : List String) (key : String) (entries : Entries) : Option Entries :=
  descend .implied (fun _ entries =>
    match entries.lookup key with
    | none => some (entries.put key (.table .header []))
    | some (.table .implied below) => some (entries.put key (.table .header below))
    | some _ => none) path .header entries

/-- Opens a new element of an array of tables below a path. -/
def openElement (path : List String) (key : String) (entries : Entries) : Option Entries :=
  descend .implied (fun _ entries =>
    match entries.lookup key with
    | none => some (entries.put key (.tables [[]]))
    | some (.tables elements) => some (entries.put key (.tables (elements ++ [[]])))
    | some _ => none) path .header entries

end Entries

end OntoFold.Toml
