import PerpExchange.Settings.Path
import PerpExchange.Settings.Reading

/-!
Where settings come from: a JSON file, environment variables, or both, and then the variables win.
Each member of the file and each variable has a key, which spells the way to a setting. The key of a
variable is its name behind a fixed stem, in small letters, and two underscores stand for a point.
-/

namespace PerpExchange.Settings

open Json

/-- What the names of variables for settings begin with, in letters of either case. -/
def variableStem : String := "strata__"

/-- The small form of a letter. Besides the capital letters, only the sign for the kelvin has one
that may stand in a key. -/
def smallLetter (c : Char) : Char := if c = '\u212a' then 'k' else c.toLower

/-- The key of a variable, if it is one for settings. -/
def keyOfVariable? (name : String) : Option String :=
  let name := name.map smallLetter
  if name.startsWith variableStem then
    some (".".intercalate ((name.drop variableStem.length).toString.splitOn "__"))
  else none

/-- Sets what keys spell, one after another. -/
def assignAll (given : List (String × Tree)) (tree : Tree) : Checked Tree :=
  given.foldlM (fun tree (key, value) => Tree.assignAt key value tree) tree

/-- Sets what variables spell. -/
def assignVariables (environment : List (String × String)) : Tree → Checked Tree :=
  assignAll (environment.filterMap fun (name, value) =>
    (keyOfVariable? name).map fun key => (key, .text value))

/-- The settings that variables give. -/
def ofVariables? (environment : List (String × String)) : Checked (Option Settings) := do
  return ofTree? (← assignVariables environment (.table []))

/-- How deep the containers of a file may be nested. -/
def maxDepth : Nat := 127

/-- A text without the mark of byte order that it may begin with. -/
def withoutMark (text : String) : String :=
  match text.toList with
  | '\ufeff' :: cs => String.ofList cs
  | _ => text

/-- The settings that a file and variables give. -/
def ofFile? (text : String) (environment : List (String × String)) : Checked (Option Settings) :=
  match (read? (withoutMark text)).bind (Tree.ofJson? maxDepth) with
  | some (.table members) => do
    return ofTree? (← assignVariables environment (← assignAll members (.table [])))
  | _ => return none

end PerpExchange.Settings
