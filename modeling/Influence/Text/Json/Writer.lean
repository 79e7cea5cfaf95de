import Influence.Number.Layout
import Influence.Text.Document
import Influence.Text.Listing
import Influence.Text.Quoted

/-!
# Writing JSON

The compact form has no space at all; the pretty form puts every entry on a line of its
own, two spaces deeper than what it belongs to, and leaves empty lists and tables closed.
Doubles that are not finite are null.
-/

namespace Influence.Json

/-- A double, as far as JSON has one. -/
def floatText (x : Float) : String := if x.isFinite then Layout.json.text x else "null"

/-- A value without parts. -/
def atom : Document → String
  | .bool b => if b then "true" else "false"
  | .integer i => toString i
  | .real x => floatText x
  | .text s => Text.json s
  | _ => "null"

mutual

/-- One line without spaces. -/
def compact : Document → String
  | .list items => "[" ++ Text.joined "," (compactItems items) ++ "]"
  | .table entries => "\x7b" ++ Text.joined "," (compactEntries entries) ++ "\x7d"
  | d => atom d

/-- The items of a list. -/
def compactItems : List Document → List String
  | [] => []
  | d :: ds => compact d :: compactItems ds

/-- The entries of a table. -/
def compactEntries : List (String × Document) → List String
  | [] => []
  | (k, d) :: es => (Text.json k ++ ":" ++ compact d) :: compactEntries es

end

/-- Lines between brackets, indented below a margin. -/
def block (opening closing margin : String) (lines : List String) : String :=
  if lines.isEmpty then opening ++ closing
  else
    opening ++ "\n" ++ Text.joined ",\n" (lines.map fun l => margin ++ "  " ++ l) ++ "\n" ++
      margin ++ closing

mutual

/-- One entry per line, below a margin. -/
def prettyFrom (margin : String) : Document → String
  | .list items => block "[" "]" margin (prettyItems (margin ++ "  ") items)
  | .table entries => block "\x7b" "\x7d" margin (prettyEntries (margin ++ "  ") entries)
  | d => atom d

/-- The items of a list. -/
def prettyItems (margin : String) : List Document → List String
  | [] => []
  | d :: ds => prettyFrom margin d :: prettyItems margin ds

/-- The entries of a table. -/
def prettyEntries (margin : String) : List (String × Document) → List String
  | [] => []
  | (k, d) :: es => (Text.json k ++ ": " ++ prettyFrom margin d) :: prettyEntries margin es

end

/-- One entry per line. -/
def pretty (d : Document) : String := prettyFrom "" d

end Influence.Json
