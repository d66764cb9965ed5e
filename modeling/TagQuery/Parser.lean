import TagQuery.Diagnostic.ParseError
import TagQuery.Grammar.Rules

/-!
# Parsing whole inputs

A parser holds an input and the state of its last run.  A run starts from a clean state, reads
the top rule and accepts if that leaves nothing; otherwise the furthest failure becomes the error.

* `parse` and `parseRule` read an input with a parser of their own;
* `Parser.run` and `Parser.runRule` leave the parser, so that its memo table and its furthest
  failure can be looked at.
-/

namespace TagQuery

/-- How far a parser is. -/
inductive Stage where
  /-- It has not run yet. -/
  | ready
  /-- It is in a run. -/
  | running
  /-- Its last run read the whole input. -/
  | accepted
  /-- Its last run did not. -/
  | rejected
deriving DecidableEq, Repr

/-- How a run ends. -/
inductive Verdict (α : Type) where
  | accepted (value : α)
  | rejected (error : ParseError)
  | stuck (fault : Fault)
deriving DecidableEq, Repr

/-- An input with the state of reading it. -/
structure Parser where
  input : Text
  /-- Outcomes of rules are kept in the memo table. -/
  memoize : Bool
  state : State := .initial
  stage : Stage := .ready

namespace Parser

variable {α : Type}

/-- A parser that has not run yet. -/
def new (input : String) (memoize : Bool) : Parser := { input := input.toList, memoize }

/-- A parser that has not run yet, with its cursor at an offset. -/
def newAt (input : String) (memoize : Bool) (offset : Nat) : Parser :=
  { new input memoize with state := State.initial.moveTo offset }

/-- More rounds than a repetition that ends can have.

The cursor can only be at an offset of the input, at the end of an entry, at one of the `moves`
offsets that an expression names, or where it is now; these are the places.  A round that adds no
key to the memo table depends on its place alone, so in a repetition that ends no two of them in a
row share a place, and keys can be added no more often than there are rules and places. -/
def rounds (p : Parser) (moves : Nat) : Nat :=
  let places := p.input.size + p.state.memo.size + moves + 2
  (Rule.all.length * places + 1) * (places + 1)

/-- There are more rounds than places, hence more than bytes in the input. -/
theorem places_lt_rounds (p : Parser) (moves : Nat) :
    p.input.size + p.state.memo.size + moves + 2 < p.rounds moves :=
  Nat.lt_of_lt_of_le (Nat.lt_succ_self _) (Nat.le_mul_of_pos_left _ (Nat.succ_pos _))

/-- The context of an action of the parser that moves the cursor to `moves` offsets of its own. -/
def context (p : Parser) (moves : Nat) : Context := ⟨p.input, p.memoize, p.rounds moves⟩

/-- The parser at the beginning of a run. -/
def restart (p : Parser) : Parser := { p with state := .initial, stage := .running }

/-- If no token was missing at the cursor or beyond it, it is the end of the input that was. -/
def expectEnd (s : State) : State :=
  if s.furthest.isEmpty || s.furthest.offset < s.cursor then
    { s with furthest := s.furthest.record s.cursor .endOfInput }
  else s

/-- The end of a run that rejects the input. -/
def reject (p : Parser) (s : State) (reason : RejectReason) : Verdict α × Parser :=
  (.rejected (.ofFailure p.input s.furthest.offset s.furthest.expected reason),
    { p with state := s, stage := .rejected })

/-- Read the whole input by an action, from a clean state. -/
def drive (p : Parser) (top : Action α) : Verdict α × Parser :=
  let p := p.restart
  match top (p.context 0) p.state with
  | .matched a s =>
    if s.cursor = p.input.size then (.accepted a, { p with state := s, stage := .accepted })
    else p.reject (expectEnd s) (.trailingInput s.cursor)
  | .failed s => p.reject s .noMatch
  | .stuck e => (.stuck e, p)

/-! ### How a run ends -/

theorem drive_of_matched {p : Parser} {top : Action α} {a : α} {t : State}
    (h : top (p.restart.context 0) p.restart.state = .matched a t) :
    p.drive top =
      if t.cursor = p.input.size then (.accepted a, { p with state := t, stage := .accepted })
      else p.reject (expectEnd t) (.trailingInput t.cursor) := by
  simp only [drive, h]
  rfl

theorem drive_of_failed {p : Parser} {top : Action α} {t : State}
    (h : top (p.restart.context 0) p.restart.state = .failed t) :
    p.drive top = p.reject t .noMatch := by
  simp only [drive, h]
  rfl

theorem drive_of_stuck {p : Parser} {top : Action α} {e : Fault}
    (h : top (p.restart.context 0) p.restart.state = .stuck e) :
    p.drive top = (.stuck e, p.restart) := by
  simp only [drive, h]

/-- Read the whole input as a query. -/
def run (p : Parser) : Verdict Query × Parser := p.drive Grammar.query

/-- Read the whole input by a rule. -/
def runRule (p : Parser) (rule : Rule) : Verdict Node × Parser := p.drive rule.action

end Parser

/-- Read a whole input as a query, with or without a memo table. -/
def parseWith (memoize : Bool) (input : String) : Verdict Query := (Parser.new input memoize).run.1

/-- Read a whole input as a query. -/
def parse (input : String) : Verdict Query := parseWith true input

/-- Read a whole input by a rule, with or without a memo table. -/
def parseRuleWith (memoize : Bool) (rule : Rule) (input : String) : Verdict Node :=
  ((Parser.new input memoize).runRule rule).1

/-- Read a whole input by a rule. -/
def parseRule (rule : Rule) (input : String) : Verdict Node := parseRuleWith true rule input

/-- Read each of several inputs as a query of its own. -/
def parseAll (memoize : Bool) (inputs : List String) : List (Verdict Query) :=
  inputs.map (parseWith memoize)

end TagQuery
