import Packwright.FileTree.Error
import Packwright.Text.Quoted
import Packwright.Text.WhiteSpace

/-! # Notes

A run keeps notes of what it did. A note says what happened; its level, message and fields are read
off it, and so is its line in a log.
-/

namespace Packwright

open Text (ascii)

/-- How much a note matters. -/
inductive Level where
  | debug
  | info
  | warn
  deriving DecidableEq, Repr

/-- The word for a level. -/
def Level.word : Level → Text
  | .debug => ascii "DEBUG"
  | .info => ascii "INFO"
  | .warn => ascii "WARN"

/-- Something that happened in a run. -/
inductive Note where
  | sourceLoaded (function : Text) (bytes : Nat)
  | pathSkipped (path : Text) (error : FileError)
  | sourceSkipped (path : Text) (error : FileError)
  | macroDefined (called : Text) (params : Nat) (separate : Bool) (scope : Text)
  | macroRedefined (called first ignored : Text)
  | macroGenerated (called function : Text)
  | forwardCall (called function scope : Text)
  | blockExtracted (function parent : Text)
  | blockReused (function parent : Text)
  | functionWritten (function path : Text)
  | namespaceCompiled (name : Text) (functions : Nat)
  | namespaceInitialized (name dir : Text)
  deriving DecidableEq, Repr

namespace Note

/-- The level of a note: what was skipped or ignored is a warning, what was finished is worth
knowing, and the rest is detail. -/
def level : Note → Level
  | .pathSkipped .. | .sourceSkipped .. | .macroRedefined .. => .warn
  | .namespaceCompiled .. | .namespaceInitialized .. => .info
  | _ => .debug

/-- The message of a note. -/
def message : Note → Text
  | .sourceLoaded .. => ascii "source loaded"
  | .pathSkipped .. => ascii "skipping unreadable path"
  | .sourceSkipped .. => ascii "skipping unreadable source"
  | .macroDefined .. => ascii "macro defined"
  | .macroRedefined .. => ascii "macro redefined, keeping first definition"
  | .macroGenerated .. => ascii "macro function generated"
  | .forwardCall .. => ascii "forward macro call"
  | .blockExtracted .. => ascii "block extracted"
  | .blockReused .. => ascii "block reused"
  | .functionWritten .. => ascii "function written"
  | .namespaceCompiled .. => ascii "namespace compiled"
  | .namespaceInitialized .. => ascii "namespace initialized"

/-- The details of a note, each with its key. -/
def details : Note → List (Text × Text)
  | .sourceLoaded function bytes =>
    [(ascii "function", function), (ascii "bytes", Text.decimal bytes)]
  | .pathSkipped path error | .sourceSkipped path error =>
    [(ascii "path", path), (ascii "error", error.message)]
  | .macroDefined called params separate scope =>
    [(ascii "macro", called), (ascii "params", Text.decimal params),
     (ascii "separate", Text.ofBool separate), (ascii "scope", scope)]
  | .macroRedefined called first ignored =>
    [(ascii "macro", called), (ascii "first", first), (ascii "ignored", ignored)]
  | .macroGenerated called function => [(ascii "macro", called), (ascii "function", function)]
  | .forwardCall called function scope =>
    [(ascii "macro", called), (ascii "function", function), (ascii "scope", scope)]
  | .blockExtracted function parent | .blockReused function parent =>
    [(ascii "function", function), (ascii "parent", parent)]
  | .functionWritten function path => [(ascii "function", function), (ascii "path", path)]
  | .namespaceCompiled name functions =>
    [(ascii "namespace", name), (ascii "functions", Text.decimal functions)]
  | .namespaceInitialized name dir => [(ascii "namespace", name), (ascii "dir", dir)]

/-- Whether a piece of a value keeps it from standing in a log line unquoted. ASCII characters do so
when they are controls, the space, the equals sign or the double quote; others when they are white
space, not printable, or stand for a stray byte. -/
def forcesQuotes (p : Text.Piece) : Bool :=
  let c := p.toChar
  if c.toNat < 0x80 then c.toNat ≤ 0x20 || c == '=' || c == '"'
  else c == '\uFFFD' || Text.isWhiteSpace c || !Text.isPrintable c

/-- A value as it stands in a log line: in quotes if it is empty or needs them. -/
def logValue (t : Text) : Text :=
  if t.isEmpty || (Text.pieces t).any forcesQuotes then Text.quote t else t

/-- The line of a note in a log. -/
def logLine (n : Note) : Text :=
  ascii "level=" ++ n.level.word ++ ascii " msg=" ++ logValue n.message
    ++ n.details.flatMap (fun (key, value) => ascii " " ++ key ++ ascii "=" ++ logValue value)
    ++ [Text.newline]

end Note

end Packwright
