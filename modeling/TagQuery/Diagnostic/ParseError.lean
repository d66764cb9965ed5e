import TagQuery.Diagnostic.Expected
import TagQuery.Text.Lines

/-!
# Errors of a rejected input

`ParseError.ofFailure` gathers what a reader is told about a failure: where it is, what was
expected there and why the input was rejected, and a message that shows the line with a caret
under the place:

```text
Line 1: expected one of:

    - "-" from LogicQuery::NEG
    - `booster` from LogicQuery::contemporary_meaning

     1 | bananas
         ^
```
-/

namespace TagQuery

namespace Message

/-- The line number, right-aligned in six columns, and a bar. -/
def gutter (line : Nat) : String :=
  String.ofList ((toString line).toList.leftpad 6 ' ') ++ " | "

/-- One entry of the list of expected tokens. -/
def entryLine (e : Expected) : String := "    - " ++ e.render ++ "\n"

/-- The caret under the column `column` of a line with the gutter `gutter`. -/
def caretLine (gutter : String) (column : Nat) : String :=
  String.ofList (Text.spaces (gutter.length + column - 1)) ++ "^"

/-- The message about a failure at a byte offset.  Each expected token is listed once, at its
first place. -/
def render (input : Text) (offset : Nat) (expected : List Expected) : String :=
  let index := LineIndex.ofText input
  let position := index.position input offset
  let gutter := gutter position.line
  "Line " ++ toString position.line ++ ": expected one of:\n\n" ++
    String.join (expected.eraseDups.map entryLine) ++ "\n" ++
    gutter ++ String.ofList (index.lineText input (position.line - 1)) ++ "\n" ++
    caretLine gutter position.column

end Message

/-- Why an input is rejected. -/
inductive RejectReason where
  /-- The top rule does not match at the start. -/
  | noMatch
  /-- The top rule matches the first `consumed` bytes, and more follows. -/
  | trailingInput (consumed : Nat)
deriving DecidableEq, Repr

/-- What a reader is told about a rejected input. -/
structure ParseError where
  /-- Byte offset of the furthest failure. -/
  offset : Nat
  /-- The same place as a line and a column. -/
  position : Position
  /-- The tokens expected there. -/
  expected : List Expected
  reason : RejectReason
  message : String
deriving DecidableEq, Repr

namespace ParseError

/-- The error about a failure at a byte offset. -/
def ofFailure (input : Text) (offset : Nat) (expected : List Expected) (reason : RejectReason) :
    ParseError :=
  { offset, expected, reason
    position := (LineIndex.ofText input).position input offset
    message := Message.render input offset expected }

/-- The token is among the expected ones, whatever rule asked for it. -/
def expects (e : ParseError) (token : Token) : Bool := e.expected.any (·.token = token)

/-- The texts of the expected tokens. -/
def literals (e : ParseError) : List String := e.expected.filterMap (·.token.text?)

/-- The input was rejected only because of what follows a match. -/
def isTrailingInput (e : ParseError) : Bool :=
  match e.reason with
  | .noMatch => false
  | .trailingInput _ => true

instance : ToString ParseError := ⟨message⟩

end ParseError

end TagQuery
