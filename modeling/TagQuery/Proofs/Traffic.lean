import TagQuery.Proofs.Built
import TagQuery.Proofs.History

/-!
# The traffic with the memo table

An evaluation asks the memo table for entries and hands entries over to it, and the state lists
these calls.

* The calls nest (`Bracketed`): between a question that found nothing and the outcome handed over
  for it there are only questions that found something and other such pairs.
* The list tells what became of the table: it serves the calls in their order
  (`MemoTable.Serves`), so that the counters, the number of entries and the answers can be read off
  the list.

Both are kept by the basic actions and the combinators (`State.Traces.keeps`), hence hold of every
expression (`eval_traffic`).
-/

namespace TagQuery

variable {c : Context} {s t u : State} {m m' m'' : MemoTable} {cs ds : List Call} {rule : Rule}
  {n : Nat} {entry : Entry}

/-! ### Calls to the memo table -/

namespace Call

/-- A question to the memo table that found an entry. -/
def isHit : Call → Bool
  | lookup _ _ hit => hit
  | _ => false

/-- A question to the memo table that found nothing. -/
def isMiss : Call → Bool
  | lookup _ _ hit => !hit
  | _ => false

/-- The rule and the offset that an entry is handed over for. -/
def storeKey? : Call → Option MemoKey
  | store rule n _ => some (rule, n)
  | _ => none

/-- A question that found nothing, or an entry handed over. -/
def isTraffic (x : Call) : Bool := x.isMiss || x.storeKey?.isSome

end Call

/-- Calls that nest: each question that found nothing is closed by one entry handed over for the
same rule and offset, and no entry is handed over otherwise. -/
inductive Bracketed : List Call → Prop where
  | nil : Bracketed []
  | pair {cs ds : List Call} (rule : Rule) (n : Nat) (entry : Entry) (hcs : Bracketed cs)
    (hds : Bracketed ds) : Bracketed (.lookup rule n false :: (cs ++ .store rule n entry :: ds))

theorem Bracketed.append (hcs : Bracketed cs) (hds : Bracketed ds) : Bracketed (cs ++ ds) := by
  induction hcs with
  | nil => exact hds
  | pair rule n entry hcs _ _ ih =>
    rw [List.cons_append, List.append_assoc, List.cons_append]
    exact .pair rule n entry hcs ih

/-! ### A table that serves calls -/

namespace MemoTable

/-- The table answers the questions among the calls and takes the entries, and then is another
one. -/
inductive Serves : MemoTable → List Call → MemoTable → Prop where
  | nil (m : MemoTable) : Serves m [] m
  | lookup {m m' : MemoTable} {cs : List Call} (rule : Rule) (n : Nat)
    (h : Serves (m.get rule n).2 cs m') :
    Serves m (.lookup rule n (m.find? rule n).isSome :: cs) m'
  | store {m m' : MemoTable} {cs : List Call} (rule : Rule) (n : Nat) (entry : Entry)
    (h : Serves (m.insert rule n entry) cs m') : Serves m (.store rule n entry :: cs) m'
  | expected {m m' : MemoTable} {cs : List Call} (n : Nat) (e : Expected) (h : Serves m cs m') :
    Serves m (.expected n e :: cs) m'

/-- The rules and offsets that entries are handed over for and that the table has no entry of. -/
def newKeys (m : MemoTable) (cs : List Call) : Finset MemoKey :=
  (cs.filterMap Call.storeKey?).toFinset.filter fun k => m.find? k.1 k.2 = none

theorem mem_newKeys {k : MemoKey} :
    k ∈ m.newKeys cs ↔ (∃ x ∈ cs, x.storeKey? = some k) ∧ m.find? k.1 k.2 = none := by
  simp only [newKeys, Finset.mem_filter, List.mem_toFinset, List.mem_filterMap]

theorem notMem_newKeys_insert (m : MemoTable) (rule : Rule) (n : Nat) (entry : Entry)
    (cs : List Call) : (rule, n) ∉ (m.insert rule n entry).newKeys cs := by
  simp [mem_newKeys]

theorem newKeys_store_of_some {entry' : Entry} (h : m.find? rule n = some entry') :
    m.newKeys (.store rule n entry :: cs) = (m.insert rule n entry).newKeys cs := by
  ext ⟨rule', n'⟩
  simp only [mem_newKeys, find?_insert, List.mem_cons, exists_eq_or_imp, Call.storeKey?]
  grind

theorem newKeys_store_of_none (h : m.find? rule n = none) :
    m.newKeys (.store rule n entry :: cs) = ((m.insert rule n entry).newKeys cs).cons (rule, n)
      (notMem_newKeys_insert m rule n entry cs) := by
  ext ⟨rule', n'⟩
  simp only [Finset.mem_cons, mem_newKeys, find?_insert, List.mem_cons, exists_eq_or_imp,
    Call.storeKey?]
  grind

namespace Serves

theorem append (hcs : m.Serves cs m') (hds : m'.Serves ds m'') : m.Serves (cs ++ ds) m'' := by
  induction hcs with
  | nil => exact hds
  | lookup rule n _ ih => exact .lookup rule n (ih hds)
  | store rule n entry _ ih => exact .store rule n entry (ih hds)
  | expected n e _ ih => exact .expected n e (ih hds)

/-- Every question is counted as what it was. -/
theorem hits_eq (h : m.Serves cs m') : m'.hits = m.hits + cs.countP Call.isHit := by
  induction h with
  | nil => rfl
  | @lookup m m' cs rule n _ ih =>
    rw [ih, hits_get, List.countP_cons, Call.isHit, Nat.add_assoc, Nat.add_comm (List.countP ..)]
  | store rule n entry _ ih => rw [ih]; rfl
  | expected n e _ ih => rw [ih]; rfl

theorem misses_eq (h : m.Serves cs m') : m'.misses = m.misses + cs.countP Call.isMiss := by
  induction h with
  | nil => rfl
  | @lookup m m' cs rule n _ ih =>
    rw [ih, misses_get, List.countP_cons, Call.isMiss, Nat.add_assoc, Nat.add_comm (List.countP ..)]
    cases m.find? rule n <;> rfl
  | store rule n entry _ ih => rw [ih]; rfl
  | expected n e _ ih => rw [ih]; rfl

/-- The table grows by the keys that are new to it, however often they are handed over. -/
theorem size_eq (h : m.Serves cs m') : m'.size = m.size + (m.newKeys cs).card := by
  induction h with
  | nil => rfl
  | lookup rule n _ ih =>
    rw [ih, size_get]
    simp only [newKeys, find?_get, List.filterMap_cons, Call.storeKey?]
  | @store m m' cs rule n entry _ ih =>
    rw [ih, size_insert]
    cases hfound : m.find? rule n with
    | some entry' => rw [newKeys_store_of_some hfound]; rfl
    | none =>
      rw [newKeys_store_of_none hfound, Finset.card_cons]
      exact Nat.add_right_comm ..
  | expected n e _ ih => exact ih

theorem hit_of_find? (h : m.Serves cs m') {hit : Bool} (hfound : (m.find? rule n).isSome)
    (hmem : .lookup rule n hit ∈ cs) : hit = true := by
  induction h with
  | nil => cases hmem
  | lookup rule' n' _ ih =>
    rcases List.mem_cons.1 hmem with heq | hmem
    · cases heq
      exact hfound
    · exact ih (by rwa [find?_get]) hmem
  | store rule' n' entry' _ ih =>
    refine ih ?_ ((List.mem_cons.1 hmem).resolve_left (by simp))
    rw [find?_insert]
    split
    · rfl
    · exact hfound
  | expected n' e _ ih => exact ih hfound ((List.mem_cons.1 hmem).resolve_left (by simp))

theorem hit_of_store {hit : Bool} (h : m.Serves (cs ++ .store rule n entry :: ds) m')
    (hmem : .lookup rule n hit ∈ ds) : hit = true := by
  induction cs generalizing m with
  | nil =>
    cases h with
    | store _ _ _ h => exact h.hit_of_find? (by simp) hmem
  | cons x cs ih => cases h <;> exact ih (by assumption)

end Serves

end MemoTable

/-! ### What an action asks -/

namespace State

/-- The state lists the calls on top of those of `s`; they nest, and they tell what became of the
memo table. -/
structure Traces (c : Context) (s : State) (cs : List Call) (t : State) : Prop where
  calls_eq : t.calls = cs.reverse ++ s.calls
  bracketed : Bracketed (cs.filter Call.isTraffic)
  serves : c.memoize = true → s.memo.Serves cs t.memo
  /-- Without a memo table no question finds an entry. -/
  unused : c.memoize = false → t.memo = s.memo ∧ ∀ x ∈ cs, ¬ x.isHit

namespace Traces

theorem refl (c : Context) (s : State) : s.Traces c [] s :=
  ⟨rfl, .nil, fun _ => .nil _, fun _ => ⟨rfl, by simp⟩⟩

theorem moveTo (h : s.Traces c cs t) (n : Nat) : s.Traces c cs (t.moveTo n) :=
  ⟨h.calls_eq, h.bracketed, h.serves, h.unused⟩

theorem trans (h : s.Traces c cs t) (h' : t.Traces c ds u) : s.Traces c (cs ++ ds) u where
  calls_eq := by rw [h'.calls_eq, h.calls_eq, List.reverse_append, List.append_assoc]
  bracketed := by
    rw [List.filter_append]
    exact h.bracketed.append h'.bracketed
  serves hm := (h.serves hm).append (h'.serves hm)
  unused hm := by
    obtain ⟨hmemo, hcs⟩ := h.unused hm
    obtain ⟨hmemo', hds⟩ := h'.unused hm
    refine ⟨hmemo'.trans hmemo, fun x hx => ?_⟩
    exact (List.mem_append.1 hx).elim (hcs x) (hds x)

theorem expect (c : Context) (s : State) (n : Nat) (e : Expected) :
    s.Traces c [.expected n e] (s.expect n e) :=
  ⟨rfl, .nil, fun _ => .expected n e (.nil _), fun _ => ⟨rfl, by simp [Call.isHit]⟩⟩

theorem hit (h : (s.lookup c.memoize rule n).1 = some entry) :
    s.Traces c [.lookup rule n true] (s.lookup c.memoize rule n).2 := by
  obtain ⟨hm, hfound⟩ := fst_lookup_eq_some_iff.1 h
  have hserves := MemoTable.Serves.lookup rule n (.nil (s.memo.get rule n).2)
  rw [hfound] at hserves
  refine ⟨?_, .nil, fun _ => ?_, fun hoff => ?_⟩
  · simp [State.lookup, hm, hfound]
  · rw [hm]
    exact hserves
  · cases hm.symm.trans hoff

/-- **A question that finds nothing, what is asked then, and the outcome handed over are a pair of
brackets** with what is asked in between. -/
theorem pair (h : (s.lookup c.memoize rule n).1 = none)
    (ht : (s.lookup c.memoize rule n).2.Traces c cs t) (entry : Entry) :
    s.Traces c (.lookup rule n false :: (cs ++ [.store rule n entry]))
      (t.store c.memoize rule n entry) := by
  have hcalls : (s.lookup c.memoize rule n).2.calls = .lookup rule n false :: s.calls := by
    cases hm : c.memoize with
    | false => rfl
    | true =>
      rw [hm, fst_lookup_true] at h
      simp [State.lookup, h]
  refine ⟨?_, ?_, fun hm => ?_, fun hm => ?_⟩
  · simp [store, ht.calls_eq, hcalls]
  · rw [List.filter_cons_of_pos rfl, List.filter_append]
    exact .pair rule n entry ht.bracketed .nil
  · -- the table serves the question, what was asked then, and the entry, in this order
    have hserves := ht.serves hm
    rw [hm, fst_lookup_true] at h
    rw [hm, memo_lookup_true] at hserves
    have key := MemoTable.Serves.lookup rule n (hserves.append (.store rule n entry (.nil _)))
    rw [h] at key
    rw [hm, memo_store_true]
    exact key
  · obtain ⟨hmemo, hcs⟩ := ht.unused hm
    rw [hm] at hmemo ⊢
    refine ⟨hmemo, fun x hx => ?_⟩
    rcases List.mem_cons.1 hx with rfl | hx
    · simp [Call.isHit]
    · rcases List.mem_append.1 hx with hx | hx
      · exact hcs x hx
      · obtain rfl := List.mem_singleton.1 hx
        simp [Call.isHit]

end Traces

end State

/-- **The traffic nests and is counted, whatever is built from the basic actions.** -/
theorem State.Traces.keeps (c : Context) (ts : List Nat) :
    c.Keeps Action.IsTerminal ts fun s t => ∃ cs, s.Traces c cs t where
  refl s := ⟨[], .refl c s⟩
  trans := by
    rintro s t u ⟨cs, h⟩ ⟨ds, h'⟩
    exact ⟨cs ++ ds, h.trans h'⟩
  moveTo s n _ := ⟨[], (refl c s).moveTo n⟩
  rewind := by
    rintro s t ⟨cs, h⟩
    exact ⟨cs, h.moveTo _⟩
  terminal := by
    rintro s _ ⟨rule, token, text, accepts⟩
    unfold Action.terminal
    split
    · exact ⟨[], (refl c s).moveTo _⟩
    · exact ⟨_, .expect c s _ _⟩
  replay h := ⟨_, (hit h).moveTo _⟩
  store := by
    rintro s t rule result h ⟨cs, ht⟩
    exact ⟨_, ht.pair h _⟩

/-! ### Without a memo table -/

namespace Parser

variable {p : Parser} {x : Step} {r : Report}

theorem memo_drive {α : Type} {top : Action α} (htop : top.Built Action.IsTerminal [])
    (hoff : p.memoize = false) : (p.drive top).2.state.memo = .empty := by
  refine drive_leaves (P := fun t => t.memo = .empty) ?_ (fun t ht => ?_) fun _ _ => rfl
  · refine (htop.leaves (State.Traces.keeps _ []) _).mono ?_
    rintro t ⟨cs, ht⟩
    exact (ht.unused hoff).1
  · rw [memo_expectEnd, ht]

theorem memo_of_step (hoff : p.memoize = false) (hmemo : p.state.memo = .empty)
    (h : p.step x = .ok r) : r.parser.state.memo = .empty := by
  cases x with
  | look | moveTo n | expect n e =>
    obtain rfl := Except.ok.inj h
    exact hmemo
  | lookup rule n =>
    simp only [step, hoff, State.lookup_false, Except.ok.injEq] at h
    subst h
    exact hmemo
  | store rule n entry =>
    simp only [step, hoff, Except.ok.injEq] at h
    subst h
    exact hmemo
  | run =>
    rw [parser_of_step_run h]
    exact memo_drive (Grammar.query_built.mono fun _ h => h.isTerminal) hoff
  | runRule rule =>
    rw [parser_of_step_runRule h]
    exact memo_drive (rule.built.mono fun _ h => h.isTerminal) hoff
  | eval e =>
    refine leaves_of_step_eval (P := fun t => t.memo = .empty) h ?_
    refine ((e.built (List.Subset.refl _)).leaves (State.Traces.keeps _ _) _).mono ?_
    rintro t ⟨cs, ht⟩
    exact (ht.unused hoff).1.trans hmemo

/-- Without a memo table nothing is counted. -/
theorem memo_after {input : String} {xs : List Step} {rs : List Report}
    (h : (Parser.new input false).steps xs = (rs, none)) :
    ((Parser.new input false).after rs).state.memo = .empty := by
  have key := inv_after (fun q => q.memoize = false ∧ q.state.memo = .empty) (fun _ => True)
    (fun q x r hq _ hr => ?_) ⟨rfl, rfl⟩ (fun _ _ => trivial) h
  · exact key.2
  · exact ⟨(follows_of_step hr).memoize_eq.trans hq.1, memo_of_step hq.1 hq.2 hr⟩

end Parser

/-! ### The traffic of an evaluation -/

/-- **The traffic with the memo table nests, and the counters tell it exactly.**  Whatever an
expression is evaluated from, be the outcome a match or a failure, the questions that find nothing
and the entries handed over are pairs of brackets in the list of its calls.  With a memo table the
counters grow by the questions that found an entry and by those that did not, and the table by the
rules and offsets that were handed over and that it had no entry of; what has been handed over is
found from then on.  Without one no question finds an entry, and the counters of a parser stay at
zero, whatever it is asked to do. -/
theorem eval_traffic (e : Expr) (c : Context) (s t : State)
    (h : (∃ v, e.eval c s = .matched v t) ∨ e.eval c s = .failed t) :
    (∃ cs, t.calls = cs.reverse ++ s.calls ∧ Bracketed (cs.filter Call.isTraffic) ∧
      (c.memoize = true →
        t.memo.stats = ⟨s.memo.hits + cs.countP Call.isHit,
          s.memo.misses + cs.countP Call.isMiss, s.memo.size + (s.memo.newKeys cs).card⟩ ∧
        ∀ before rule n entry later hit, cs = before ++ .store rule n entry :: later →
          .lookup rule n hit ∈ later → hit = true) ∧
      (c.memoize = false → t.memo = s.memo ∧ ∀ x ∈ cs, ¬ x.isHit)) ∧
    ∀ input xs rs, (Parser.new input false).steps xs = (rs, none) →
      ((Parser.new input false).after rs).state.memo.stats = ⟨0, 0, 0⟩ := by
  refine ⟨?_, fun input xs rs hsteps => ?_⟩
  · have hleaves := (e.built (List.Subset.refl _)).leaves (State.Traces.keeps c e.targets) s
    obtain ⟨cs, ht⟩ : ∃ cs, s.Traces c cs t := by
      rcases h with ⟨v, h⟩ | h <;> rw [h] at hleaves <;> exact hleaves
    refine ⟨cs, ht.calls_eq, ht.bracketed, fun hm => ?_, ht.unused⟩
    have hserves := ht.serves hm
    refine ⟨?_, ?_⟩
    · rw [MemoTable.stats, hserves.hits_eq, hserves.misses_eq, hserves.size_eq]
    · rintro before rule n entry later hit rfl hmem
      exact hserves.hit_of_store hmem
  · rw [Parser.memo_after hsteps]
    rfl

/-- A tag within itself: the second question about it finds nothing either, since the first one is
still open, and its entry is handed over twice.  The question behind the move finds it. -/
theorem eval_traffic_nested :
    let c : Context := ⟨"booster".toList, true, 9⟩
    let e : Expr := .seq [.memo .tag .tag (.rule .tag), .moveTo 0, .rule .tag]
    ∃ t, ((∃ v, e.eval c .initial = .matched v t) ∨ e.eval c .initial = .failed t) ∧
      ∃ cs, t.calls = cs.reverse ∧ Bracketed (cs.filter Call.isTraffic) ∧
        t.memo.stats = ⟨1, 3, 2⟩ ∧ cs.countP Call.isHit = 1 ∧ cs.countP Call.isMiss = 3 ∧
          (MemoTable.empty.newKeys cs).card = 2 := by
  intro c e
  have hrun : (match e.eval c .initial with
      | .matched _ t => decide (t.memo.stats = ⟨1, 3, 2⟩)
      | _ => false) = true := by decide +kernel
  split at hrun
  · next v t he =>
    have hstats := of_decide_eq_true hrun
    obtain ⟨⟨cs, hcalls, hbracketed, hon, -⟩, -⟩ :=
      eval_traffic e c .initial t (Or.inl ⟨v, he⟩)
    have hcounts := (hon rfl).1.symm.trans hstats
    simp only [MemoStats.mk.injEq, State.initial, MemoTable.size_empty, Nat.zero_add] at hcounts
    refine ⟨t, Or.inl ⟨v, he⟩, cs, ?_, hbracketed, hstats, ?_⟩
    · rw [hcalls]
      exact List.append_nil _
    · simpa [MemoTable.empty] using hcounts
  · cases hrun

end TagQuery
