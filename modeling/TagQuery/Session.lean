import TagQuery.Grammar.Expr
import TagQuery.Parser

/-!
# Sessions

A session is a list of steps on one parser.  Besides running the parser, a step can move its
cursor, record failures, ask and fill its memo table, and evaluate an expression at the cursor.
Only a run sets the stage of the parser and clears what earlier steps left.
-/

namespace TagQuery

/-- One step of a session. -/
inductive Step where
  /-- Change nothing. -/
  | look
  /-- Read the whole input as a query. -/
  | run
  /-- Read the whole input by a rule. -/
  | runRule (rule : Rule)
  /-- Move the cursor. -/
  | moveTo (offset : Nat)
  /-- Record that a token was not found. -/
  | expect (offset : Nat) (expected : Expected)
  /-- Ask the memo table. -/
  | lookup (rule : Rule) (offset : Nat)
  /-- Fill the memo table. -/
  | store (rule : Rule) (offset : Nat) (entry : Entry)
  /-- Evaluate an expression at the cursor. -/
  | eval (expr : Expr)
deriving Repr

/-- What a step answers. -/
inductive Answer where
  | done
  | query (verdict : Verdict Query)
  | node (verdict : Verdict Node)
  | entry (found : Option Entry)
  | matched (value : Value)
  | failed
deriving Repr

/-- What a step leaves. -/
structure Report where
  answer : Answer
  /-- The calls that the step itself made, in order.  The calls within a run do not count. -/
  calls : List Call
  parser : Parser

namespace Parser

/-- The report of a step that leaves the state `s`, in which it has listed its calls. -/
def report (p : Parser) (answer : Answer) (s : State) : Report :=
  ⟨answer, s.calls.reverse, { p with state := s }⟩

/-- Do one step. -/
def step (p : Parser) (x : Step) : Except Fault Report :=
  let s : State := { p.state with calls := [] }
  match x with
  | .look => .ok (p.report .done s)
  | .run =>
    match p.run with
    | (.stuck e, _) => .error e
    | (verdict, q) => .ok ⟨.query verdict, [], q⟩
  | .runRule rule =>
    match p.runRule rule with
    | (.stuck e, _) => .error e
    | (verdict, q) => .ok ⟨.node verdict, [], q⟩
  | .moveTo offset => .ok (p.report .done (s.moveTo offset))
  | .expect offset e => .ok (p.report .done (s.expect offset e))
  | .lookup rule offset =>
    let (found, t) := s.lookup p.memoize rule offset
    .ok (p.report (.entry found) t)
  | .store rule offset entry => .ok (p.report .done (s.store p.memoize rule offset entry))
  | .eval expr =>
    match expr.eval (p.context expr.moves) s with
    | .matched value t => .ok (p.report (.matched value) t)
    | .failed t => .ok (p.report .failed t)
    | .stuck e => .error e

/-- Do the steps one after the other, up to one that gets stuck. -/
def steps (p : Parser) : List Step → List Report × Option Fault
  | [] => ([], none)
  | x :: xs =>
    match p.step x with
    | .error e => ([], some e)
    | .ok r =>
      let (rs, e) := r.parser.steps xs
      (r :: rs, e)

end Parser

end TagQuery
