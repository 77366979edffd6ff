import PlainSheet.Binary64.Basic

/-!
Values of the TOML format, version 1.0, and the rules by which tables are put together
from headers, dotted keys and inline tables. A table remembers how it came about,
because that decides what may still be added to it.
-/

namespace PlainSheet.Toml

/-- How a table came about. -/
inductive TableForm where
  /-- It was written in braces, and is complete. -/
  | inline
  /-- It has a header of its own. -/
  | header
  /-- It was passed through by the header of a table inside it. -/
  | implied
  /-- It was passed through by a dotted key. -/
  | dotted
deriving DecidableEq, Repr

inductive Value where
  | string (text : String)
  | integer (number : Int)
  | float (number : Binary64)
  | boolean (truth : Bool)
  /-- A date, a time of day or both; which of them is not kept. -/
  | dateTime
  | array (elements : List Value)
  | table (form : TableForm) (entries : List (String × Value))
  /-- An array of tables that have headers. Its last table comes first. -/
  | tables (reversed : List (List (String × Value)))

/-- The keys and values of a table, in the order in which they were defined. -/
abbrev Entries : Type := List (String × Value)

namespace Entries

/-- Replaces the value of a key, or adds the key at the end. The new value depends on
the one that was there; where there can be none, neither is there a result. -/
def update? (key : String) (change : Option Value → Option Value) : Entries → Option Entries
  | [] => (change none).map fun value => [(key, value)]
  | (other, value) :: rest =>
    if other = key then (change (some value)).map fun changed => (other, changed) :: rest
    else (update? key change rest).map fun changed => (other, value) :: changed

/-- Adds a key that is not there yet. -/
def define? (key : String) (value : Value) (entries : Entries) : Option Entries :=
  entries.update? key fun
    | none => some value
    | some _ => none

/-- Changes the table that keys lead to. Tables on the way that are missing are made,
of the form given. Inline tables are closed to this; so are tables with a header, when
the keys are those of a dotted key. -/
def changeAt? (made : TableForm) (change : TableForm → Entries → Option Entries) :
    List String → TableForm → Entries → Option Entries
  | [], form, entries => change form entries
  | key :: keys, _, entries =>
    entries.update? key fun
      | none => (changeAt? made change keys made []).map (Value.table made)
      | some (.table form inner) =>
        if form = .inline ∨ (made = .dotted ∧ form = .header) then none
        else (changeAt? made change keys form inner).map (Value.table form)
      | some (.tables (last :: before)) =>
        (changeAt? made change keys .header last).map fun changed => .tables (changed :: before)
      | some _ => none

/-- Defines the value of a dotted key. The last table on the way must itself have come
from dotted keys. -/
def defineDotted? (keys : List String) (value : Value) (entries : Entries) : Option Entries :=
  match keys.reverse with
  | [] => none
  | [key] => entries.define? key value
  | key :: above =>
    changeAt? .dotted
      (fun form inner => if form = .dotted then inner.define? key value else none)
      above.reverse .header entries

/-- Opens the table of a header. It is new, or was passed through by other headers. -/
def openTable? (keys : List String) (entries : Entries) : Option Entries :=
  match keys.reverse with
  | [] => none
  | key :: above =>
    changeAt? .implied
      (fun _ inner => inner.update? key fun
        | none => some (.table .header [])
        | some (.table .implied there) => some (.table .header there)
        | some _ => none)
      above.reverse .header entries

/-- Opens a further table of an array of tables. -/
def openElement? (keys : List String) (entries : Entries) : Option Entries :=
  match keys.reverse with
  | [] => none
  | key :: above =>
    changeAt? .implied
      (fun _ inner => inner.update? key fun
        | none => some (.tables [[]])
        | some (.tables reversed) => some (.tables ([] :: reversed))
        | some _ => none)
      above.reverse .header entries

/-- Defines the value of a dotted key in the table that a header opened. -/
def defineIn? (header keys : List String) (value : Value) (entries : Entries) :
    Option Entries :=
  changeAt? .implied (fun _ inner => inner.defineDotted? keys value) header .header entries

end Entries

end PlainSheet.Toml
