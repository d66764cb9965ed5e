import TagQuery.Text.Basic

/-!
# Lines and positions

A line ends before each newline and at the end of the text.  `LineIndex` keeps the offsets where
the lines of a text start and converts byte offsets to positions that a reader can use: lines and
columns counted from 1, columns in characters.

An index may be asked about another text than its own.  Where a line of the one does not fit the
characters of the other, columns count bytes and the text of the line is empty.
-/

namespace TagQuery

/-- A line and a column, both counted from 1. -/
structure Position where
  line : Nat
  column : Nat
deriving DecidableEq, Repr

namespace Position

/-- Positions are ordered by line, then by column. -/
instance : Ord Position :=
  ⟨fun p q => (compare p.line q.line).then (compare p.column q.column)⟩

instance : LT Position := ltOfOrd

theorem lt_iff {p q : Position} :
    p < q ↔ p.line < q.line ∨ p.line = q.line ∧ p.column < q.column := by
  show (compare p.line q.line).then (compare p.column q.column) = .lt ↔ _
  rw [Ordering.then_eq_lt, Nat.compare_eq_lt, Nat.compare_eq_eq, Nat.compare_eq_lt]

/-- The position as `line:column`. -/
def render (p : Position) : String := toString p.line ++ ":" ++ toString p.column

instance : ToString Position := ⟨render⟩

end Position

/-- The offsets where the lines of a text start. -/
structure LineIndex where
  starts : List Nat
deriving DecidableEq, Repr

namespace LineIndex

/-- The offsets after each newline of a text whose first byte is at `offset`. -/
def startsFrom (offset : Nat) : Text → List Nat
  | [] => []
  | c :: t =>
    if c = '\n' then (offset + 1) :: startsFrom (offset + 1) t
    else startsFrom (offset + c.utf8Size) t

/-- The first line starts at 0, every other line after a newline. -/
def ofText (t : Text) : LineIndex := ⟨0 :: startsFrom 0 t⟩

/-- Number of lines; a text without a newline has one. -/
def lineCount (index : LineIndex) : Nat := index.starts.length

/-- Offset where the line `line`, counted from 0, starts. -/
def lineStart? (index : LineIndex) (line : Nat) : Option Nat := index.starts[line]?

/-- The line, counted from 0, that holds the byte offset `offset`: the last one that starts at or
before it. -/
def lineAt (index : LineIndex) (offset : Nat) : Nat :=
  (index.starts.takeWhile (· ≤ offset)).length - 1

/-- The column, counted from 1, of `offset` on a line of `t` that starts at `start`: it counts the
characters between them, or the bytes if one of the two is inside a character. -/
def column (t : Text) (start offset : Nat) : Nat :=
  match t.slice? start offset with
  | some piece => piece.length + 1
  | none => offset - start + 1

/-- The position of a byte offset; an offset past the end of `t` counts as the end. -/
def position (index : LineIndex) (t : Text) (offset : Nat) : Position :=
  let offset := min offset t.size
  let line := index.lineAt offset
  ⟨line + 1, column t ((index.lineStart? line).getD 0) offset⟩

/-- A line without the carriage return that may end it. -/
def trimReturn (line : Text) : Text :=
  if line.getLast? = some '\r' then line.dropLast else line

/-- The text of the line `line`, counted from 0, without its terminator; a line that does not
exist is empty. -/
def lineText (index : LineIndex) (t : Text) (line : Nat) : Text :=
  match index.lineStart? line with
  | none => []
  | some start =>
    let stop := match index.lineStart? (line + 1) with
      | some next => next - 1
      | none => t.size
    trimReturn ((t.slice? start stop).getD [])

end LineIndex

end TagQuery
