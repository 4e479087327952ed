import Curly.Text.Quoted

/-! Locations in a source text. -/

namespace Curly

/-- Where something stands: the name of the text, the line and the column, both counted from 1, and the number
    of characters before it. -/
structure Location where
  file : String
  line : Int
  column : Int
  offset : Int
deriving DecidableEq, Repr

namespace Location

/-- The short form, which leaves the offset out. -/
def text (l : Location) : String :=
  l.file ++ ":" ++ toString l.line ++ ":" ++ toString l.column

/-- The full form. -/
def detail (l : Location) : String :=
  "SourceLocation(" ++ Text.quote l.file ++ ", " ++ toString l.line ++ ", " ++ toString l.column ++ ", " ++
    toString l.offset ++ ")"

end Location
end Curly
