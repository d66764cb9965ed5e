import TagQuery.Proofs.Built
import TagQuery.Proofs.Outcome

/-!
# Which entries are asked for

An action that meets no entry of its own visits a list of rules and offsets: it asks for each of
them once, in vain, and hands over an entry for each (`State.Visited`).  `Action.Visits` is the
judgment: started at a place in a sound state whose memo table has none of the keys, an action
visits exactly these.

There is one rule for each way to put actions together, next to those of `Action.Yields`, which says
how the parts end and where the next one begins.  The keys of the parts follow one another, and they
have to be different from each other: that is what keeps the later parts from meeting the entries of
the earlier ones.
-/

namespace TagQuery

variable {α β : Type} {c : Context} {s t u : State} {ks ls : List MemoKey} {rule : Rule} {n : Nat}

namespace State

/-- The keys are different from each other, and the memo table has none of them. -/
structure Unvisited (s : State) (ks : List MemoKey) : Prop where
  nodup : ks.Nodup
  find? : ∀ k ∈ ks, s.memo.find? k.1 k.2 = none

/-- Between the states the keys were asked for in vain and entries for them handed over, and nothing
else has happened to the memo table. -/
structure Visited (s : State) (ks : List MemoKey) (t : State) : Prop where
  hits : t.memo.hits = s.memo.hits
  misses : t.memo.misses = s.memo.misses + ks.length
  size : t.memo.size = s.memo.size + ks.length
  find? : ∀ rule n, (rule, n) ∉ ks → t.memo.find? rule n = s.memo.find? rule n

theorem Unvisited.left (h : s.Unvisited (ks ++ ls)) : s.Unvisited ks :=
  ⟨(List.nodup_append.1 h.nodup).1, fun k hk => h.find? k (List.mem_append_left ls hk)⟩

/-- Visiting other keys leaves the rest unvisited. -/
theorem Unvisited.right (h : s.Unvisited (ks ++ ls)) (ht : s.Visited ks t) : t.Unvisited ls := by
  obtain ⟨-, hls, hne⟩ := List.nodup_append.1 h.nodup
  refine ⟨hls, fun k hk => ?_⟩
  rw [ht.find? k.1 k.2 fun hmem => hne k hmem k hk rfl]
  exact h.find? k (List.mem_append_right ks hk)

namespace Visited

theorem of_memo_eq (h : t.memo = s.memo) : s.Visited [] t :=
  ⟨by rw [h], by rw [h]; rfl, by rw [h]; rfl, fun _ _ _ => by rw [h]⟩

theorem moveTo (h : s.Visited ks t) (n : Nat) : s.Visited ks (t.moveTo n) :=
  ⟨h.hits, h.misses, h.size, h.find?⟩

theorem trans (h : s.Visited ks t) (h' : t.Visited ls u) : s.Visited (ks ++ ls) u where
  hits := h'.hits.trans h.hits
  misses := by rw [h'.misses, h.misses, List.length_append, Nat.add_assoc]
  size := by rw [h'.size, h.size, List.length_append, Nat.add_assoc]
  find? rule n hk := by
    obtain ⟨hks, hls⟩ := not_or.1 (mt List.mem_append.2 hk)
    exact (h'.find? rule n hls).trans (h.find? rule n hks)

/-- A miss, what is visited then, and the outcome that is handed over are one visit more. -/
theorem memoized (hs : s.Unvisited ((rule, n) :: ks)) (h : (s.lookup true rule n).2.Visited ks t)
    (entry : Entry) : s.Visited ((rule, n) :: ks) (t.store true rule n entry) := by
  obtain ⟨hnotMem, -⟩ := List.nodup_cons.1 hs.nodup
  have hmiss : s.memo.find? rule n = none := hs.find? (rule, n) List.mem_cons_self
  -- nothing that was visited in between has this key, so the entry is a new one
  have hfree : t.memo.find? rule n = none := by
    rw [h.find? rule n hnotMem, find?_lookup, hmiss]
  refine ⟨?_, ?_, ?_, fun rule' n' hk => ?_⟩
  · rw [memo_store_true, MemoTable.hits_insert, h.hits, memo_lookup_true, MemoTable.hits_get, hmiss]
    rfl
  · rw [memo_store_true, MemoTable.misses_insert, h.misses, memo_lookup_true,
      MemoTable.misses_get, hmiss, List.length_cons, Nat.add_assoc, Nat.add_comm ks.length]
    rfl
  · rw [memo_store_true, MemoTable.size_insert, hfree, h.size, memo_lookup_true,
      MemoTable.size_get]
    rfl
  · obtain ⟨hne, hks⟩ := List.ne_and_not_mem_of_not_mem_cons hk
    rw [memo_store_true, MemoTable.find?_insert, if_neg, h.find? rule' n' hks, find?_lookup]
    rintro ⟨rfl, rfl⟩
    exact hne rfl

end Visited

end State

namespace Action

variable {input : Text} {m : Nat} {x : Action α} {fs : Failures}

/-- The action leaves the memo table as it is. -/
def Silent (x : Action α) : Prop := ∀ c s, (x c s).Leaves fun t => t.memo = s.memo

/-- In a sound state at the offset `n` whose memo table has none of the keys, the action visits
them. -/
def Visits (x : Action α) (input : Text) (n : Nat) (ks : List MemoKey) : Prop :=
  ∀ c s, c.input = input → c.memoize = true → input.size < c.rounds → s.cursor = n → s.Sound c →
    s.Unvisited ks → (x c s).Leaves (s.Visited ks)

/-! ### Actions that leave the memo table alone -/

namespace Silent

theorem pure (a : α) : (Pure.pure a : Action α).Silent := fun _ _ => rfl

theorem cursor : cursor.Silent := fun _ _ => rfl

theorem orStuck (fault : Fault) (o : Option α) : (orStuck fault o).Silent := by
  intro c s
  cases o with
  | some a => exact rfl
  | none => trivial

theorem terminal (rule : Rule) (token : Token) (text : Text) (accepts : Text → Bool) :
    (terminal rule token text accepts).Silent := by
  intro c s
  unfold Action.terminal
  split <;> exact rfl

theorem map (h : x.Silent) (f : α → β) : (f <$> x).Silent := fun c s => (h c s).map f

theorem chains : State.Chains fun s t => t.memo = s.memo where
  refl _ := rfl
  trans ht hu := hu.trans ht
  rewind ht := ht

theorem bind {f : α → Action β} (h : x.Silent) (hf : ∀ a, (f a).Silent) : (x >>= f).Silent :=
  fun c => leaves_bind chains (h c) fun a => hf a c

theorem choice {xs : List (Action α)} (h : ∀ x ∈ xs, x.Silent) : (choice xs).Silent :=
  fun c => leaves_choice chains fun x hx => h x hx c

theorem many (h : x.Silent) : (many x).Silent :=
  fun c => leaves_manyUpTo chains (h c) c.rounds

theorem visits (h : x.Silent) : x.Visits input n [] := fun c s _ _ _ _ _ _ =>
  (h c s).mono fun _ ht => .of_memo_eq ht

end Silent

/-! ### One rule for each way to put actions together -/

namespace Visits

theorem of_eq (h : x.Visits input n ks) (hks : ks = ls) : x.Visits input n ls := hks ▸ h

theorem map (h : x.Visits input n ks) (f : α → β) : (f <$> x).Visits input n ks :=
  fun c s hc hm hr hn hs hks => (h c s hc hm hr hn hs hks).map f

theorem exists_reply {o : Outcome α} (h : x.Visits input n ks) (hy : x.Yields input n o)
    (hc : c.input = input) (hm : c.memoize = true) (hr : input.size < c.rounds)
    (hn : s.cursor = n) (hs : s.Sound c) (hks : s.Unvisited ks) :
    ∃ t, x c s = o.reply t ∧ o.Leads s t ∧ t.Sound c ∧ s.Visited ks t := by
  obtain ⟨t, ht, hl, hs'⟩ := hy c s hc hr hn hs
  have hvisited := h c s hc hm hr hn hs hks
  rw [ht] at hvisited
  refine ⟨t, ht, hl, hs', ?_⟩
  obtain ⟨_ | a, stop, fs⟩ := o <;> exact hvisited

theorem bind {f : α → Action β} {a : α} (hy : x.Yields input n ⟨some a, m, fs⟩)
    (hx : x.Visits input n ks) (hf : (f a).Visits input m ls) :
    (x >>= f).Visits input n (ks ++ ls) := by
  intro c s hc hm hr hn hs hks
  obtain ⟨t, ht, hl, hs', hst⟩ := hx.exists_reply hy hc hm hr hn hs hks.left
  rw [bind_apply, ht]
  exact (hf c t hc hm hr hl.cursor hs' (hks.right hst)).mono fun u hu => hst.trans hu

theorem bind_failed {f : α → Action β} (hy : x.Yields input n ⟨none, m, fs⟩)
    (hx : x.Visits input n ks) : (x >>= f).Visits input n ks := by
  intro c s hc hm hr hn hs hks
  obtain ⟨t, ht, -, -, hst⟩ := hx.exists_reply hy hc hm hr hn hs hks
  rw [bind_apply, ht]
  exact hst

theorem sequence (h : x.Visits input n ks) : (sequence x).Visits input n ks := by
  intro c s hc hm hr hn hs hks
  rcases (h c s hc hm hr hn hs hks).cases with ⟨a, t, hx, ht⟩ | ⟨t, hx, ht⟩ | ⟨e, hx⟩ <;>
    rw [Action.sequence, hx]
  · exact ht
  · exact ht.moveTo _
  · trivial

theorem optional (h : x.Visits input n ks) : (optional x).Visits input n ks := by
  intro c s hc hm hr hn hs hks
  rcases (h c s hc hm hr hn hs hks).cases with ⟨a, t, hx, ht⟩ | ⟨t, hx, ht⟩ | ⟨e, hx⟩ <;>
    rw [Action.optional, hx]
  · exact ht
  · exact ht.moveTo _
  · trivial

theorem choice_nil : (choice ([] : List (Action α))).Visits input n [] :=
  Silent.visits fun _ _ => rfl

theorem choice_matched {a : α} {xs : List (Action α)} (hy : x.Yields input n ⟨some a, m, fs⟩)
    (hx : x.Visits input n ks) : (choice (x :: xs)).Visits input n ks := by
  intro c s hc hm hr hn hs hks
  obtain ⟨t, ht, -, -, hst⟩ := hx.exists_reply hy hc hm hr hn hs hks
  rw [choice_cons_apply, ht]
  exact hst

/-- After a failure the next alternative begins at the same place. -/
theorem choice_failed {xs : List (Action α)} (hy : x.Yields input n ⟨none, m, fs⟩)
    (hx : x.Visits input n ks) (hxs : (choice xs).Visits input n ls) :
    (choice (x :: xs)).Visits input n (ks ++ ls) := by
  intro c s hc hm hr hn hs hks
  obtain ⟨t, ht, -, hs', hst⟩ := hx.exists_reply hy hc hm hr hn hs hks.left
  have hback := hst.moveTo s.cursor
  rw [choice_cons_apply, ht]
  refine (hxs c (t.moveTo s.cursor) hc hm hr hn (hs'.moveTo _) (hks.right hback)).mono ?_
  exact fun u hu => hback.trans hu

theorem many_stop (hy : x.Yields input n ⟨none, m, fs⟩) (hx : x.Visits input n ks) (limit : Nat) :
    (manyUpTo x limit).Visits input n ks := by
  intro c s hc hm hr hn hs hks
  cases limit with
  | zero => trivial
  | succ limit =>
    obtain ⟨t, ht, -, -, hst⟩ := hx.exists_reply hy hc hm hr hn hs hks
    rw [manyUpTo_succ_apply, ht]
    exact hst.moveTo _

theorem many_step {a : α} (hy : x.Yields input n ⟨some a, m, fs⟩) (hnm : n < m)
    (hx : x.Visits input n ks) (hxs : ∀ limit, (manyUpTo x limit).Visits input m ls)
    (limit : Nat) : (manyUpTo x limit).Visits input n (ks ++ ls) := by
  intro c s hc hm hr hn hs hks
  cases limit with
  | zero => trivial
  | succ limit =>
    obtain ⟨t, ht, hl, hs', hst⟩ := hx.exists_reply hy hc hm hr hn hs hks.left
    have hmoved : t.cursor ≠ s.cursor := by
      rw [hl.cursor, hn]
      exact Nat.ne_of_gt hnm
    rw [manyUpTo_succ_apply, ht]
    simp only [Outcome.reply, hmoved, ↓reduceIte]
    refine Reply.Leaves.map ?_ _
    exact (hxs limit c t hc hm hr hl.cursor hs' (hks.right hst)).mono fun u hu => hst.trans hu

theorem many (h : ∀ limit, (manyUpTo x limit).Visits input n ks) : (many x).Visits input n ks :=
  fun c s => h c.rounds c s

/-- **A memoized action visits its key and what the action visits.** -/
theorem memoized [Fragment α] (h : x.Visits input n ks) (rule : Rule) :
    (memoized rule x).Visits input n ((rule, n) :: ks) := by
  rintro c s hc hm hr rfl hs hks
  have hmiss : (s.lookup c.memoize rule s.cursor).1 = none := by
    rw [hm, State.fst_lookup_true]
    exact hks.find? (rule, s.cursor) List.mem_cons_self
  have hlooked : (s.lookup c.memoize rule s.cursor).2.Unvisited ks := by
    refine ⟨(List.nodup_cons.1 hks.nodup).2, fun k hk => ?_⟩
    rw [State.find?_lookup]
    exact hks.find? k (List.mem_cons_of_mem _ hk)
  rw [memoized_of_lookup hmiss]
  have hvisits := h c _ hc hm hr (State.cursor_lookup ..) (hs.lookup rule s.cursor) hlooked
  rw [hm] at hvisits ⊢
  rcases hvisits.cases with ⟨a, t, hx, ht⟩ | ⟨t, hx, ht⟩ | ⟨e, hx⟩ <;> rw [hx]
  · exact State.Visited.memoized hks ht _
  · exact State.Visited.memoized hks ht _
  · trivial

end Visits

end Action

end TagQuery
