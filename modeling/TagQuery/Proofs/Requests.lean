import Mathlib.Data.Finset.Card
import TagQuery.Packrat.MemoTable

/-!
# The last entry wins

Between them, questions to a memo table and entries for it come in any order.  What a table answers
can be told from the requests alone (`MemoRequest.latest?`): the entry that was inserted last for
the rule and the offset, whatever was inserted for others, and nothing if there was none.  So can
its counters: they are the numbers of questions that were answered and that were not, and the number
of rules and offsets that entries were inserted for.

The last request decides what a table holds, so what it holds is shown by induction from the end
(`MemoTable.find?_after_empty`, `MemoTable.size_after_empty`).  What it answers depends on the
requests before, and this goes from the front (`MemoTable.hits_after`, `MemoTable.misses_after`).
-/

namespace TagQuery

variable {rule : Rule} {n : Nat} {entry : Entry}

/-- What a memo table is asked to do. -/
inductive MemoRequest where
  /-- Tell the entry of a rule at an offset. -/
  | get (rule : Rule) (offset : Nat)
  /-- Keep an entry for a rule at an offset. -/
  | insert (rule : Rule) (offset : Nat) (entry : Entry)
deriving DecidableEq, Repr

namespace MemoRequest

variable {x : MemoRequest} {xs : List MemoRequest}

/-- The request is a question. -/
def isGet : MemoRequest → Bool
  | get .. => true
  | insert .. => false

/-- The rule and the offset that an entry is inserted for. -/
def key? : MemoRequest → Option MemoKey
  | get .. => none
  | insert rule n _ => some (rule, n)

/-- The entry that is inserted for a rule at an offset. -/
def entryFor? (rule : Rule) (n : Nat) : MemoRequest → Option Entry
  | get .. => none
  | insert rule' n' entry => if rule' = rule ∧ n' = n then some entry else none

/-- Among the requests, read from the last one on, the first entry for a rule at an offset. -/
def latest? (xs : List MemoRequest) (rule : Rule) (n : Nat) : Option Entry :=
  xs.reverse.findSome? (entryFor? rule n)

/-- The rules and offsets that entries are inserted for. -/
def keys (xs : List MemoRequest) : Finset MemoKey := (xs.filterMap key?).toFinset

theorem entryFor?_eq_some_iff : x.entryFor? rule n = some entry ↔ x = insert rule n entry := by
  cases x <;> simp [entryFor?, and_assoc]

theorem latest?_append_singleton (xs : List MemoRequest) (x : MemoRequest) (rule : Rule) (n : Nat) :
    latest? (xs ++ [x]) rule n = (x.entryFor? rule n).or (latest? xs rule n) := by
  rw [latest?, List.reverse_append, List.reverse_singleton, List.singleton_append,
    List.findSome?_cons, latest?]
  cases x.entryFor? rule n <;> rfl

/-- The latest entry is one that no other for the same rule and offset comes after. -/
theorem latest?_eq_some_iff : latest? xs rule n = some entry ↔
    ∃ before later, xs = before ++ insert rule n entry :: later ∧
      ∀ entry', insert rule n entry' ∉ later := by
  rw [latest?, List.findSome?_eq_some_iff]
  constructor
  · rintro ⟨later, x, before, hxs, hx, hlater⟩
    obtain rfl := entryFor?_eq_some_iff.1 hx
    refine ⟨before.reverse, later.reverse, ?_, fun entry' hmem => ?_⟩
    · rw [← List.reverse_reverse xs, hxs]
      simp
    · cases (entryFor?_eq_some_iff.2 rfl).symm.trans (hlater _ (List.mem_reverse.1 hmem))
  · rintro ⟨before, later, rfl, hlater⟩
    refine ⟨later.reverse, _, before.reverse, by simp, entryFor?_eq_some_iff.2 rfl, ?_⟩
    refine fun x hx => Option.eq_none_iff_forall_ne_some.2 fun entry' hentry => ?_
    obtain rfl := entryFor?_eq_some_iff.1 hentry
    exact hlater entry' (List.mem_reverse.1 hx)

theorem mem_keys : (rule, n) ∈ keys xs ↔ ∃ entry, insert rule n entry ∈ xs := by
  simp only [keys, List.mem_toFinset, List.mem_filterMap]
  constructor
  · rintro ⟨x, hx, hkey⟩
    cases x with
    | get rule' n' => cases hkey
    | insert rule' n' entry =>
      obtain ⟨rfl, rfl⟩ := Prod.mk.inj (Option.some.inj hkey)
      exact ⟨entry, hx⟩
  · rintro ⟨entry, hx⟩
    exact ⟨_, hx, rfl⟩

theorem isSome_latest?_iff : (latest? xs rule n).isSome ↔ (rule, n) ∈ keys xs := by
  rw [mem_keys, Option.isSome_iff_exists]
  constructor
  · rintro ⟨entry, hentry⟩
    obtain ⟨before, later, rfl, -⟩ := latest?_eq_some_iff.1 hentry
    exact ⟨entry, List.mem_append_right _ List.mem_cons_self⟩
  · rintro ⟨entry, hmem⟩
    rw [← Option.isSome_iff_exists, latest?, List.findSome?_isSome_iff]
    exact ⟨_, List.mem_reverse.2 hmem, by rw [entryFor?_eq_some_iff.2 rfl]; rfl⟩

theorem latest?_eq_none_iff : latest? xs rule n = none ↔ ∀ entry, insert rule n entry ∉ xs := by
  rw [← Option.not_isSome_iff_eq_none, isSome_latest?_iff, mem_keys, not_exists]

theorem keys_append_get (xs : List MemoRequest) (rule : Rule) (n : Nat) :
    keys (xs ++ [get rule n]) = keys xs := by
  rw [keys, List.filterMap_append]
  exact congrArg _ (List.append_nil _)

theorem card_keys_append_insert (xs : List MemoRequest) (rule : Rule) (n : Nat) (entry : Entry) :
    (keys (xs ++ [insert rule n entry])).card =
      if (rule, n) ∈ keys xs then (keys xs).card else (keys xs).card + 1 := by
  rw [← Finset.card_insert_eq_ite]
  congr 1
  ext k
  simp [keys, key?, eq_comm]

theorem keys_eq_empty_iff : keys xs = ∅ ↔ ∀ x ∈ xs, x.isGet := by
  rw [keys, List.toFinset_eq_empty_iff, List.filterMap_eq_nil_iff]
  refine forall₂_congr fun x _ => ?_
  cases x <;> simp [key?, isGet]

end MemoRequest

namespace MemoTable

/-- The table after one request. -/
def serve (m : MemoTable) : MemoRequest → MemoTable
  | .get rule n => (m.get rule n).2
  | .insert rule n entry => m.insert rule n entry

/-- The table after requests, one after the other. -/
def after (m : MemoTable) (xs : List MemoRequest) : MemoTable := xs.foldl serve m

/-- The answers to the questions among requests, in their order. -/
def answers (m : MemoTable) : List MemoRequest → List (Option Entry)
  | [] => []
  | .get rule n :: xs => (m.get rule n).1 :: (m.get rule n).2.answers xs
  | .insert rule n entry :: xs => (m.insert rule n entry).answers xs

theorem after_cons (m : MemoTable) (x : MemoRequest) (xs : List MemoRequest) :
    m.after (x :: xs) = (m.serve x).after xs := rfl

theorem after_append_singleton (m : MemoTable) (xs : List MemoRequest) (x : MemoRequest) :
    m.after (xs ++ [x]) = (m.after xs).serve x := List.foldl_append

/-- What was asked before has no part in later answers but through the table. -/
theorem answers_append (m : MemoTable) (xs ys : List MemoRequest) :
    m.answers (xs ++ ys) = m.answers xs ++ (m.after xs).answers ys := by
  induction xs generalizing m with
  | nil => rfl
  | cons x xs ih =>
    cases x with
    | get rule n => exact congrArg _ (ih _)
    | insert rule n entry => exact ih _

/-- Tables with the same entries in view answer alike. -/
theorem answers_congr {m m' : MemoTable} (h : ∀ rule n, m.find? rule n = m'.find? rule n)
    (xs : List MemoRequest) : m.answers xs = m'.answers xs := by
  induction xs generalizing m m' with
  | nil => rfl
  | cons x xs ih =>
    cases x with
    | get rule n =>
      -- the question leaves both tables with the entries they had
      have hlater : (m.get rule n).2.answers xs = (m'.get rule n).2.answers xs :=
        ih fun _ _ => by rw [find?_get, find?_get, h]
      rw [answers, answers, fst_get, fst_get, h, hlater]
    | insert rule n entry => exact ih fun _ _ => by rw [find?_insert, find?_insert, h]

theorem length_answers (m : MemoTable) (xs : List MemoRequest) :
    (m.answers xs).length = xs.countP MemoRequest.isGet := by
  induction xs generalizing m with
  | nil => rfl
  | cons x xs ih =>
    cases x with
    | get rule n => rw [answers, List.length_cons, ih, List.countP_cons_of_pos rfl]
    | insert rule n entry => rw [answers, ih, List.countP_cons_of_neg (by simp [MemoRequest.isGet])]

/-! ### Entries -/

/-- **One request**: the entry that it inserts, if any, takes the place of the one before. -/
theorem find?_serve (m : MemoTable) (x : MemoRequest) (rule : Rule) (n : Nat) :
    (m.serve x).find? rule n = (x.entryFor? rule n).or (m.find? rule n) := by
  cases x with
  | get rule' n' => exact find?_get ..
  | insert rule' n' entry =>
    rw [serve, find?_insert, MemoRequest.entryFor?]
    split <;> rfl

/-- **The last entry wins.** -/
theorem find?_after_empty (xs : List MemoRequest) (rule : Rule) (n : Nat) :
    (empty.after xs).find? rule n = MemoRequest.latest? xs rule n := by
  induction xs using List.reverseRecOn with
  | nil => exact find?_empty ..
  | append_singleton xs x ih =>
    rw [after_append_singleton, find?_serve, ih, MemoRequest.latest?_append_singleton]

/-- **There are as many entries as rules and offsets that entries were inserted for.** -/
theorem size_after_empty (xs : List MemoRequest) :
    (empty.after xs).size = (MemoRequest.keys xs).card := by
  induction xs using List.reverseRecOn with
  | nil => rfl
  | append_singleton xs x ih =>
    rw [after_append_singleton]
    cases x with
    | get rule n => rw [serve, size_get, ih, MemoRequest.keys_append_get]
    | insert rule n entry =>
      rw [serve, size_insert, ih, find?_after_empty, MemoRequest.card_keys_append_insert]
      simp only [MemoRequest.isSome_latest?_iff]

theorem isEmpty_iff (m : MemoTable) : m.isEmpty ↔ m.size = 0 := by
  simp [isEmpty, size, Std.TreeMap.isEmpty_eq_size_eq_zero]

/-! ### Counters -/

theorem hits_after (m : MemoTable) (xs : List MemoRequest) :
    (m.after xs).hits = m.hits + (m.answers xs).countP Option.isSome := by
  induction xs generalizing m with
  | nil => rfl
  | cons x xs ih =>
    rw [after_cons, ih]
    cases x with
    | get rule n =>
      rw [serve, hits_get, answers, List.countP_cons, fst_get, Nat.add_assoc,
        Nat.add_comm (List.countP ..)]
    | insert rule n entry => rfl

theorem misses_after (m : MemoTable) (xs : List MemoRequest) :
    (m.after xs).misses = m.misses + (m.answers xs).countP Option.isNone := by
  induction xs generalizing m with
  | nil => rfl
  | cons x xs ih =>
    rw [after_cons, ih]
    cases x with
    | get rule n =>
      rw [serve, misses_get, answers, List.countP_cons, fst_get, Nat.add_assoc,
        Nat.add_comm (List.countP ..)]
      cases m.find? rule n <;> rfl
    | insert rule n entry => rfl

theorem hits_after_empty (xs : List MemoRequest) :
    (empty.after xs).hits = (empty.answers xs).countP Option.isSome :=
  (hits_after empty xs).trans (Nat.zero_add _)

theorem misses_after_empty (xs : List MemoRequest) :
    (empty.after xs).misses = (empty.answers xs).countP Option.isNone :=
  (misses_after empty xs).trans (Nat.zero_add _)

theorem hits_add_misses_after_empty (xs : List MemoRequest) :
    (empty.after xs).hits + (empty.after xs).misses = xs.countP MemoRequest.isGet := by
  have hnone : (Option.isNone : Option Entry → Bool) = fun o => decide ¬ o.isSome := by
    funext o
    cases o <;> rfl
  rw [hits_after_empty, misses_after_empty, ← length_answers empty xs,
    List.length_eq_countP_add_countP Option.isSome, hnone]

end MemoTable

/-- **A memo table is a map in which the last entry wins, and its counters are exact.**  Let a new
table get requests, questions and entries in any order.

* A question is answered with the entry that was inserted for its rule and offset and that no other
  such entry came after, and with nothing if there was none, whatever was inserted for others.
* The hits and the misses are the numbers of questions that were answered with something and with
  nothing; together they are all questions.
* There are as many entries as different rules and offsets that entries were inserted for, and the
  table is empty exactly if there were only questions.
* One more question, anywhere among the requests, changes no other answer. -/
theorem requests_served (xs ys : List MemoRequest) (rule : Rule) (n : Nat) :
    (∀ entry, ((MemoTable.empty.after xs).get rule n).1 = some entry ↔
      ∃ before later, xs = before ++ .insert rule n entry :: later ∧
        ∀ entry', .insert rule n entry' ∉ later) ∧
    (((MemoTable.empty.after xs).get rule n).1 = none ↔ ∀ entry, .insert rule n entry ∉ xs) ∧
    (MemoTable.empty.after xs).hits = (MemoTable.empty.answers xs).countP Option.isSome ∧
    (MemoTable.empty.after xs).misses = (MemoTable.empty.answers xs).countP Option.isNone ∧
    (MemoTable.empty.after xs).hits + (MemoTable.empty.after xs).misses =
      xs.countP MemoRequest.isGet ∧
    (MemoTable.empty.after xs).size = (MemoRequest.keys xs).card ∧
    (MemoTable.empty.after xs).stats.entries = (MemoRequest.keys xs).card ∧
    ((MemoTable.empty.after xs).isEmpty ↔ ∀ x ∈ xs, x.isGet) ∧
    MemoTable.empty.answers (xs ++ ys) =
      MemoTable.empty.answers xs ++ (MemoTable.empty.after xs).answers ys ∧
    MemoTable.empty.answers (xs ++ .get rule n :: ys) =
      MemoTable.empty.answers xs ++
        MemoRequest.latest? xs rule n :: (MemoTable.empty.after xs).answers ys := by
  have hget : ((MemoTable.empty.after xs).get rule n).1 = MemoRequest.latest? xs rule n :=
    (MemoTable.fst_get ..).trans (MemoTable.find?_after_empty ..)
  have hsize := MemoTable.size_after_empty xs
  refine ⟨fun entry => ?_, ?_, MemoTable.hits_after_empty xs, MemoTable.misses_after_empty xs,
    MemoTable.hits_add_misses_after_empty xs, hsize, hsize, ?_, MemoTable.answers_append .., ?_⟩
  · rw [hget, MemoRequest.latest?_eq_some_iff]
  · rw [hget, MemoRequest.latest?_eq_none_iff]
  · rw [MemoTable.isEmpty_iff, hsize, Finset.card_eq_zero, MemoRequest.keys_eq_empty_iff]
  · rw [MemoTable.answers_append, MemoTable.answers, hget,
      MemoTable.answers_congr fun _ _ => MemoTable.find?_get ..]

end TagQuery
