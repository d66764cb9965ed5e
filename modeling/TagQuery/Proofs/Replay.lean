import TagQuery.Proofs.History

/-!
# Entries are written once

An evaluation stores an outcome only where there was no entry when it began: that of a rule within
itself is stored twice, but an entry that was there before is answered with and never replaced
(`State.Grown`).  So whatever is evaluated, and whatever is asked or recorded in between, the entry
stays (`Parser.find?_after`), and every action that is memoized under its key is replayed from it
(`Action.memoized_matched`, `Action.memoized_failed`): the body does not run.
-/

namespace TagQuery

variable {p : Parser} {x : Step} {xs : List Step} {r : Report} {rs : List Report} {rule : Rule}
  {n : Nat} {entry : Entry}

/-- The step hands nothing over to the memo table by itself and does not clear it. -/
def Step.keepsEntries : Step → Bool
  | .look | .moveTo _ | .expect .. | .lookup .. | .eval _ => true
  | .run | .runRule _ | .store .. => false

/-! ### Entries stay -/

namespace Parser

/-- **One step keeps the entry.** -/
theorem find?_of_step (hx : x.keepsEntries) (h : p.step x = .ok r)
    (he : p.state.memo.find? rule n = some entry) :
    r.parser.state.memo.find? rule n = some entry := by
  cases x with
  | look | moveTo m | expect m e =>
    obtain rfl := Except.ok.inj h
    exact he
  | lookup rule' m =>
    obtain rfl := Except.ok.inj h
    exact (State.find?_lookup ..).trans he
  | eval e =>
    refine leaves_of_step_eval (P := fun t => t.memo.find? rule n = some entry) h ?_
    exact (p.grown_eval e e.moves []).mono fun t ht => ht.keeps rule n entry he
  | run | runRule rule' | store rule' m entry' => cases hx

theorem find?_after (hxs : ∀ x ∈ xs, x.keepsEntries) (h : p.steps xs = (rs, none))
    (he : p.state.memo.find? rule n = some entry) :
    (p.after rs).state.memo.find? rule n = some entry :=
  inv_after (fun q => q.state.memo.find? rule n = some entry) (fun x => x.keepsEntries)
    (fun _ _ _ hq hx hr => find?_of_step hx hr hq) he hxs h

end Parser

/-! ### Replaying an entry -/

/-- The state after an entry was replayed for a rule. -/
def State.replayed (s : State) (rule : Rule) (entry : Entry) : State :=
  { s with
    cursor := entry.stop
    memo := { s.memo with hits := s.memo.hits + 1 }
    calls := .lookup rule s.cursor true :: s.calls }

theorem State.lookup_of_find? {s : State} (h : s.memo.find? rule s.cursor = some entry) :
    (s.lookup true rule s.cursor).2.moveTo entry.stop = s.replayed rule entry := by
  simp [lookup, MemoTable.get, h, replayed, moveTo]

namespace Action

variable {α : Type} [Fragment α] {c : Context} {s : State}

theorem memoized_of_find? (hm : c.memoize = true) (h : s.memo.find? rule s.cursor = some entry)
    (body : Action α) :
    memoized rule body c s = replay entry c (s.lookup true rule s.cursor).2 := by
  have hlook : (s.lookup c.memoize rule s.cursor).1 = some entry :=
    State.fst_lookup_eq_some_iff.2 ⟨hm, h⟩
  rw [memoized_of_lookup_some hlook, hm]

/-- **A stored node of the type that is asked for is matched with**, whatever the body is. -/
theorem memoized_matched (hm : c.memoize = true)
    (h : s.memo.find? rule s.cursor = some entry) (body : Action α) {a : α}
    (ha : entry.result = some (Fragment.toNode a)) :
    memoized rule body c s = .matched a (s.replayed rule entry) := by
  rw [memoized_of_find? hm h, replay_apply, ha, Option.bind_some, Fragment.ofNode?_toNode]
  exact congrArg (Reply.matched a) (State.lookup_of_find? h)

/-- **Anything else that is stored is a failure**, be it a failure or a node of another type. -/
theorem memoized_failed (hm : c.memoize = true)
    (h : s.memo.find? rule s.cursor = some entry) (body : Action α)
    (hne : ∀ a : α, entry.result ≠ some (Fragment.toNode a)) :
    memoized rule body c s = .failed (s.replayed rule entry) := by
  have hnone : entry.result.bind (Fragment.ofNode? (α := α)) = none := by
    refine Option.eq_none_iff_forall_ne_some.2 fun a ha => ?_
    obtain ⟨x, hx, hxa⟩ := Option.bind_eq_some_iff.1 ha
    exact hne a (hx.trans (congrArg some (Fragment.ofNode?_eq_some_iff.1 hxa)))
  rw [memoized_of_find? hm h, replay_apply, hnone]
  exact congrArg Reply.failed (State.lookup_of_find? h)

end Action

/-- **Entries are written once and replayed as they are.**  Let a parser with a memo table have an
entry.  Whatever is looked at, asked, recorded or evaluated from then on, and wherever the cursor is
moved, the entry stays as it is, unless it is replaced by hand or a run clears the table.  Asked for
what is memoized under its key, the parser runs no body: it counts one hit and nothing else, keeps
its entries and its failures, moves the cursor to the stored end, and matches with the stored node
if that is of the type that is asked for.  Otherwise it fails.  For a memo entry of an expression,
the type that is asked for is the nodes of one kind. -/
theorem entry_replayed (p : Parser) (rule : Rule) (n : Nat) (entry : Entry)
    (hp : p.memoize = true) (he : p.state.memo.find? rule n = some entry) (xs : List Step)
    (hxs : ∀ x ∈ xs, x.keepsEntries) (rs : List Report) (h : p.steps xs = (rs, none)) :
    let q := p.after rs
    let t : State := { q.state with
      cursor := entry.stop
      memo := { q.state.memo with hits := q.state.memo.hits + 1 }
      calls := .lookup rule n true :: q.state.calls }
    q.state.memo.find? rule n = some entry ∧
      (∀ (α : Type) [Fragment α] (body : Action α) (moves : Nat),
        (∀ a, entry.result = some (Fragment.toNode a) →
          Action.memoized rule body (q.context moves) (q.state.moveTo n) = .matched a t) ∧
        ((∀ a : α, entry.result ≠ some (Fragment.toNode a)) →
          Action.memoized rule body (q.context moves) (q.state.moveTo n) = .failed t)) ∧
      ∀ (kind : NodeKind) (part : Expr) (moves : Nat),
        (∀ x, entry.result = some x → x.kind = kind →
          (Expr.memo rule kind part).eval (q.context moves) (q.state.moveTo n) =
            .matched (.node x) t) ∧
        ((∀ x, entry.result = some x → x.kind ≠ kind) →
          (Expr.memo rule kind part).eval (q.context moves) (q.state.moveTo n) = .failed t) := by
  intro q t
  have hkeep : q.state.memo.find? rule n = some entry := Parser.find?_after hxs h he
  have hq : q.memoize = true := (Parser.input_after h).2.trans hp
  refine ⟨hkeep, fun α _ body moves => ⟨fun a ha => ?_, fun hne => ?_⟩,
    fun kind part moves => ⟨?_, fun hne => ?_⟩⟩
  · exact Action.memoized_matched (c := q.context moves) hq hkeep body ha
  · exact Action.memoized_failed (c := q.context moves) hq hkeep body hne
  · rintro x hx rfl
    rw [Expr.eval, Action.map_apply, Action.memoized_matched (s := q.state.moveTo n)
      (c := q.context moves) (a := ⟨x, rfl⟩) hq hkeep _ hx]
    rfl
  · rw [Expr.eval, Action.map_apply, Action.memoized_failed (s := q.state.moveTo n)
      (c := q.context moves) hq hkeep _ fun a ha => hne _ ha a.2]
    rfl

/-- An entry for a tag that says it was a `-`: evaluations of the tag and of itself within it change
nothing about it.  A memo entry for a `-` matches with it, and the rule itself fails. -/
theorem entry_replayed_foreign :
    let entry : Entry := ⟨some (.negation (.ofLength 0 1)), 3⟩
    let p : Parser := { Parser.new "booster" true with
      state := State.initial.store true .tag 0 entry }
    let xs : List Step := [.lookup .tag 0, .eval (.memo .tag .tag (.rule .query)),
      .moveTo 0, .eval (.rule .query), .expect 9 .endOfInput]
    p.memoize = true ∧ p.state.memo.find? .tag 0 = some entry ∧ (∀ x ∈ xs, x.keepsEntries) ∧
      ∃ rs, p.steps xs = (rs, none) ∧
        (p.after rs).state.memo.find? .tag 0 = some entry ∧
        (∃ t, (Expr.memo .tag .negation .fail).eval ((p.after rs).context 0)
            ((p.after rs).state.moveTo 0) = .matched (.node (.negation (.ofLength 0 1))) t ∧
          t.cursor = 3) ∧
        ∃ t, (Expr.memo .tag .tag (.rule .tag)).eval ((p.after rs).context 0)
          ((p.after rs).state.moveTo 0) = .failed t ∧ t.cursor = 3 := by
  intro entry p xs
  have hxs : ∀ x ∈ xs, x.keepsEntries := by decide
  have he : p.state.memo.find? .tag 0 = some entry := MemoTable.find?_insert_self ..
  have hnone : (p.steps xs).2 = none := by decide +kernel
  have hsteps : p.steps xs = ((p.steps xs).1, none) := Prod.ext rfl hnone
  obtain ⟨hkeep, -, hexpr⟩ := entry_replayed p .tag 0 entry rfl he xs hxs _ hsteps
  refine ⟨rfl, he, hxs, _, hsteps, hkeep, ⟨_, (hexpr .negation .fail 0).1 _ rfl rfl, rfl⟩,
    _, (hexpr .tag (.rule .tag) 0).2 ?_, rfl⟩
  rintro x ⟨⟩ hkind
  cases hkind

end TagQuery
