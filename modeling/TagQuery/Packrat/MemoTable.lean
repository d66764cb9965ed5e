import TagQuery.Grammar.Rule
import TagQuery.Query.Node
import Std.Data.TreeMap

/-!
# Memo tables

A memo table stores the outcome of a rule at an offset, be it a success or a failure, and counts
how often it was asked in vain and how often not.

`MemoTable.find?` is the view of a table: `MemoTable.find?_insert` says what storing an entry does
to it, and `MemoTable.find?_get` that asking does nothing to it.
-/

namespace TagQuery

/-- The outcome of a rule. -/
structure Entry where
  /-- What the rule read; `none` if it failed. -/
  result : Option Node
  /-- The cursor after the rule. -/
  stop : Nat
deriving DecidableEq, Repr

/-- What a memo table is asked for: a rule and the offset where it begins. -/
abbrev MemoKey := Rule × Nat

namespace MemoKey

/-- Keys are ordered by rule, then by offset. -/
def cmp : MemoKey → MemoKey → Ordering :=
  compareLex (compareOn fun k => k.1.index) (compareOn fun k => k.2)

instance : Std.TransCmp cmp := by unfold cmp; infer_instance

instance : Std.LawfulEqCmp cmp where
  eq_of_compare {k l} h := by
    simp only [cmp, compareLex, compareOn, Ordering.then_eq_eq, Nat.compare_eq_eq,
      Rule.index_inj] at h
    exact Prod.ext h.1 h.2

end MemoKey

/-- Counters of a memo table. -/
structure MemoStats where
  hits : Nat
  misses : Nat
  entries : Nat
deriving DecidableEq, Repr

/-- Outcomes of rules by rule and offset, with the numbers of answered and unanswered
questions. -/
structure MemoTable where
  entries : Std.TreeMap MemoKey Entry MemoKey.cmp := ∅
  hits : Nat := 0
  misses : Nat := 0

namespace MemoTable

/-- The table that holds nothing and was never asked. -/
def empty : MemoTable := {}

/-- The entry of a rule at an offset. -/
def find? (table : MemoTable) (rule : Rule) (offset : Nat) : Option Entry :=
  table.entries[(rule, offset)]?

/-- The entry of a rule at an offset, and the table with the question counted. -/
def get (table : MemoTable) (rule : Rule) (offset : Nat) : Option Entry × MemoTable :=
  match table.find? rule offset with
  | some entry => (some entry, { table with hits := table.hits + 1 })
  | none => (none, { table with misses := table.misses + 1 })

/-- Store an entry in the place of the one with the same rule and offset, if any. -/
def insert (table : MemoTable) (rule : Rule) (offset : Nat) (entry : Entry) : MemoTable :=
  { table with entries := table.entries.insert (rule, offset) entry }

/-- Number of entries. -/
def size (table : MemoTable) : Nat := table.entries.size

/-- The table holds no entry. -/
def isEmpty (table : MemoTable) : Bool := table.entries.isEmpty

/-- The counters of a table. -/
def stats (table : MemoTable) : MemoStats := ⟨table.hits, table.misses, table.size⟩

variable (table : MemoTable) (rule : Rule) (offset : Nat)

@[simp] theorem find?_empty : empty.find? rule offset = none :=
  Std.TreeMap.getElem?_emptyc

@[simp] theorem size_empty : empty.size = 0 := rfl

theorem find?_insert (entry : Entry) (rule' : Rule) (offset' : Nat) :
    (table.insert rule offset entry).find? rule' offset' =
      if rule = rule' ∧ offset = offset' then some entry else table.find? rule' offset' := by
  simp only [find?, insert, Std.TreeMap.getElem?_insert, Std.LawfulEqCmp.compare_eq_iff_eq,
    Prod.mk.injEq]

@[simp] theorem find?_insert_self (entry : Entry) :
    (table.insert rule offset entry).find? rule offset = some entry := by
  simp [find?_insert]

theorem size_insert (entry : Entry) :
    (table.insert rule offset entry).size =
      if (table.find? rule offset).isSome then table.size else table.size + 1 := by
  simp [size, insert, find?, Std.TreeMap.size_insert]

@[simp] theorem hits_insert (entry : Entry) : (table.insert rule offset entry).hits = table.hits :=
  rfl

@[simp] theorem misses_insert (entry : Entry) :
    (table.insert rule offset entry).misses = table.misses := rfl

@[simp] theorem fst_get : (table.get rule offset).1 = table.find? rule offset := by
  unfold get; split <;> simp [*]

/-- Asking changes no entry. -/
@[simp] theorem find?_get (rule' : Rule) (offset' : Nat) :
    (table.get rule offset).2.find? rule' offset' = table.find? rule' offset' := by
  unfold get; split <;> rfl

@[simp] theorem size_get : (table.get rule offset).2.size = table.size := by
  unfold get; split <;> rfl

/-- Every question is counted, as a hit or as a miss. -/
theorem hits_get : (table.get rule offset).2.hits =
    table.hits + if (table.find? rule offset).isSome then 1 else 0 := by
  unfold get; split <;> simp [*]

theorem misses_get : (table.get rule offset).2.misses =
    table.misses + if (table.find? rule offset).isSome then 0 else 1 := by
  unfold get; split <;> simp [*]

end MemoTable

end TagQuery
