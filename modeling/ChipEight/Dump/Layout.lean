import ChipEight.Word

/-!
The lines of a dump. A section is a title and an indented body; a table of sixteen entries is
written in two rows of eight, each behind the numbers of its first and last entry.
-/
namespace ChipEight.Dump

def title (name : String) : String := "\t" ++ name ++ " :"

def indented (line : String) : String := "\t\t" ++ line

def titled (name : String) (body : List String) : List String :=
  title name :: body.map indented

/-- The numbers of the first and the last entry of a row. -/
def span (first last : Nat) : String :=
  hex4 (UInt16.ofNat first) ++ " - " ++ hex4 (UInt16.ofNat last) ++ " :"

/-- Every word behind a blank. -/
def wordsText (words : List UInt16) : String :=
  String.join (words.map fun w => " " ++ hex4 w)

def flagName (flag : Bool) : String := if flag then "true" else "false"

/-- A flag as wide as a word. -/
def flagPadded (flag : Bool) : String := if flag then "true  " else "false "

/-- Every flag behind a blank and as wide as a word, but for the last one. -/
def flagsText : List Bool → String
  | [] => ""
  | [flag] => " " ++ flagName flag
  | flag :: rest => " " ++ flagPadded flag ++ flagsText rest

/-- Sixteen entries in two rows. -/
def table {A : Type} (text : List A → String) (entries : Vector A 16) : List String :=
  [ span 0 7 ++ text (entries.toList.take 8), span 8 15 ++ text (entries.toList.drop 8) ]

end ChipEight.Dump
