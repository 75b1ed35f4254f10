import Packwright.Text.Line
import Packwright.Text.WhiteSpace

/-! # Comments

A comment is a whole line whose first character that is not white space is `#`. Comments and blank
lines are dropped before anything else looks at a source.
-/

namespace Packwright.Comment

/-- Whether a line holds no code: it is blank, or a comment. -/
def isIdle (line : Text) : Bool :=
  match Text.skipSpace line with
  | [] => true
  | first :: _ => first == 35

/-- The lines of a text that hold code. -/
def strip (content : Text) : Text :=
  Text.unlines ((Text.lines content).filter fun line => !isIdle line)

end Packwright.Comment
