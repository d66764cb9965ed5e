import Mathlib.Data.Finset.Prod
import TagQuery.Proofs.Built
import TagQuery.Session

/-!
# There are enough rounds

A repetition gets stuck beyond a number of rounds, which a parser works out from its input, its memo
table and the expression (`Parser.rounds`).  This module shows that the number is no restriction: an
evaluation that ends with any number of rounds ends so with that of the parser, hence one that gets
stuck there as endless is so for every number of rounds (`Parser.step_eval_endless_iff`).

* How an action goes on depends on the cursor and on the entries in view only (`Action.Steady`).
* The cursor stays within a finite set of places, and entries are added at these places and never
  changed (`State.Grown`).
* In a repetition that ends, no two rounds begin alike.  Two rounds with as many entries in view
  have the same ones, so they begin at different places; and entries can be added at most once for
  each rule and place (`Action.EndsIn.le`).
-/

namespace TagQuery

variable {α β : Type} {ts : List Nat} {input : Text} {c : Context} {s t u : State}

/-! ### What decides how an action goes on -/

/-- The states have the cursor at the same place and the same entries in view. -/
structure State.Like (s t : State) : Prop where
  cursor : s.cursor = t.cursor
  find? : ∀ rule n, s.memo.find? rule n = t.memo.find? rule n

/-- The replies end in the same way, with states that are alike. -/
def Reply.Like (r r' : Reply α) : Prop :=
  (∃ a s t, r = .matched a s ∧ r' = .matched a t ∧ s.Like t) ∨
    (∃ s t, r = .failed s ∧ r' = .failed t ∧ s.Like t) ∨ ∃ e, r = .stuck e ∧ r' = .stuck e

/-- How the action goes on depends on the cursor and on the entries in view only. -/
def Action.Steady (x : Action α) : Prop := ∀ c s t, s.Like t → (x c s).Like (x c t)

namespace State.Like

theorem symm (h : s.Like t) : t.Like s := ⟨h.cursor.symm, fun rule n => (h.find? rule n).symm⟩

theorem moveTo (h : s.Like t) (n : Nat) : (s.moveTo n).Like (t.moveTo n) := ⟨rfl, h.find?⟩

theorem expect (h : s.Like t) (m n : Nat) (e e' : Expected) :
    (s.expect m e).Like (t.expect n e') := ⟨h.cursor, h.find?⟩

theorem lookup (h : s.Like t) (memoize : Bool) (rule : Rule) (n : Nat) :
    (s.lookup memoize rule n).1 = (t.lookup memoize rule n).1 ∧
      (s.lookup memoize rule n).2.Like (t.lookup memoize rule n).2 := by
  refine ⟨?_, by simpa using h.cursor, fun rule' n' => by simpa using h.find? rule' n'⟩
  cases memoize with
  | false => rfl
  | true => simpa using h.find? rule n

theorem store (h : s.Like t) (memoize : Bool) (rule : Rule) (n : Nat) (result : Option Node) :
    (s.store memoize rule n ⟨result, s.cursor⟩).Like
      (t.store memoize rule n ⟨result, t.cursor⟩) := by
  refine ⟨h.cursor, fun rule' n' => ?_⟩
  rw [h.cursor]
  cases memoize with
  | false => exact h.find? rule' n'
  | true => simp only [memo_store_true, MemoTable.find?_insert, h.find?]

end State.Like

namespace Reply.Like

theorem matched (a : α) (h : s.Like t) : (matched a s).Like (matched a t) :=
  Or.inl ⟨a, s, t, rfl, rfl, h⟩

theorem failed (h : s.Like t) : (failed s : Reply α).Like (failed t) :=
  Or.inr (Or.inl ⟨s, t, rfl, rfl, h⟩)

theorem stuck (e : Fault) : (stuck e : Reply α).Like (stuck e) := Or.inr (Or.inr ⟨e, rfl, rfl⟩)

theorem map {r r' : Reply α} (h : r.Like r') (f : α → β) : (r.map f).Like (r'.map f) := by
  rcases h with ⟨a, s, t, rfl, rfl, h⟩ | ⟨s, t, rfl, rfl, h⟩ | ⟨e, rfl, rfl⟩
  · exact matched (f a) h
  · exact failed h
  · exact stuck e

end Reply.Like

namespace Action

namespace Steady

variable {x : Action α} {xs : List (Action α)}

theorem terminal (rule : Rule) (token : Token) (text : Text) (accepts : Text → Bool) :
    (terminal rule token text accepts).Steady := by
  intro c s t hst
  simp only [Action.terminal, hst.cursor]
  split
  · exact .matched _ (hst.moveTo _)
  · exact .failed (hst.expect _ _ _ _)

theorem bind {f : α → Action β} (hx : x.Steady) (hf : ∀ a, (f a).Steady) : (x >>= f).Steady := by
  intro c s t hst
  rw [bind_apply, bind_apply]
  rcases hx c s t hst with ⟨a, s', t', hs, ht, h'⟩ | ⟨s', t', hs, ht, h'⟩ | ⟨e, hs, ht⟩ <;>
    rw [hs, ht]
  · exact hf a c s' t' h'
  · exact .failed h'
  · exact .stuck e

theorem sequence (hx : x.Steady) : (sequence x).Steady := by
  intro c s t hst
  rw [sequence_apply, sequence_apply]
  rcases hx c s t hst with ⟨a, s', t', hs, ht, h'⟩ | ⟨s', t', hs, ht, h'⟩ | ⟨e, hs, ht⟩ <;>
    rw [hs, ht]
  · exact .matched a h'
  · rw [hst.cursor]
    exact .failed (h'.moveTo _)
  · exact .stuck e

theorem optional (hx : x.Steady) : (optional x).Steady := by
  intro c s t hst
  rw [optional_apply, optional_apply]
  rcases hx.sequence c s t hst with ⟨a, s', t', hs, ht, h'⟩ | ⟨s', t', hs, ht, h'⟩ | ⟨e, hs, ht⟩ <;>
    rw [hs, ht]
  · exact .matched (some a) h'
  · exact .matched none h'
  · exact .stuck e

theorem choice (h : ∀ x ∈ xs, x.Steady) : (choice xs).Steady := by
  induction xs with
  | nil => exact fun c s t hst => .failed hst
  | cons x xs ih =>
    intro c s t hst
    have hxs := ih fun y hy => h y (List.mem_cons_of_mem x hy)
    rw [choice_cons_apply, choice_cons_apply]
    rcases h x List.mem_cons_self c s t hst with
      ⟨a, s', t', hs, ht, h'⟩ | ⟨s', t', hs, ht, h'⟩ | ⟨e, hs, ht⟩ <;> rw [hs, ht]
    · exact .matched a h'
    · rw [hst.cursor]
      exact hxs c _ _ (h'.moveTo _)
    · exact .stuck e

theorem manyUpTo (hx : x.Steady) (limit : Nat) : (manyUpTo x limit).Steady := by
  induction limit with
  | zero => exact fun c s t _ => .stuck .endless
  | succ limit ih =>
    intro c s t hst
    rw [manyUpTo_succ_apply, manyUpTo_succ_apply]
    rcases hx c s t hst with ⟨a, s', t', hs, ht, h'⟩ | ⟨s', t', hs, ht, h'⟩ | ⟨e, hs, ht⟩ <;>
      rw [hs, ht]
    · -- both go on or neither does, since their cursors have moved alike
      simp only [h'.cursor, hst.cursor]
      split
      · exact .matched [a] h'
      · exact (ih c s' t' h').map _
    · rw [hst.cursor]
      exact .matched [] (h'.moveTo _)
    · exact .stuck e

theorem memoized [Fragment α] (hx : x.Steady) (rule : Rule) : (memoized rule x).Steady := by
  intro c s t hst
  obtain ⟨hfound, hlike⟩ := hst.lookup c.memoize rule t.cursor
  cases hlook : (t.lookup c.memoize rule t.cursor).1 with
  | some entry =>
    rw [memoized_of_lookup_some (by rw [hst.cursor, hfound, hlook]),
      memoized_of_lookup_some hlook, replay_apply, replay_apply, hst.cursor]
    cases entry.result.bind (Fragment.ofNode? (α := α)) with
    | none => exact .failed (hlike.moveTo entry.stop)
    | some a => exact .matched a (hlike.moveTo entry.stop)
  | none =>
    rw [memoized_of_lookup (by rw [hst.cursor, hfound, hlook]), memoized_of_lookup hlook,
      hst.cursor]
    rcases hx c _ _ hlike with ⟨a, s', t', hs, ht, h'⟩ | ⟨s', t', hs, ht, h'⟩ | ⟨e, hs, ht⟩ <;>
      rw [hs, ht]
    · exact .matched a (h'.store _ _ _ _)
    · exact .failed (h'.store _ _ _ _)
    · exact .stuck e

end Steady

/-- **What is built from terminals is steady.** -/
theorem Built.steady {x : Action α} (h : x.Built IsTerminal ts) : x.Steady := by
  induction h with
  | pure a => exact fun c s t hst => .matched a hst
  | fail => exact fun c s t hst => .failed hst
  | reversed => exact fun c s t _ => .stuck .reversedSpan
  | cursor =>
    intro c s t hst
    rw [cursor_apply, cursor_apply, hst.cursor]
    exact .matched _ hst
  | moveTo => exact fun c s t hst => .matched () (hst.moveTo _)
  | terminal h =>
    obtain ⟨rule, token, text, accepts⟩ := h
    exact .terminal rule token text accepts
  | map _ f ih => exact fun c s t hst => (ih c s t hst).map f
  | bind _ _ ihx ihf => exact ihx.bind ihf
  | sequence _ ih => exact ih.sequence
  | optional _ ih => exact ih.optional
  | choice _ ih => exact .choice ih
  | many _ ih => exact fun c s t hst => ih.manyUpTo c.rounds c s t hst
  | memoized _ rule ih => exact ih.memoized rule

end Action

/-! ### Where the cursor stays, and what is added to the memo table -/

/-- The cursor and the ends of the entries in view are among the places. -/
structure State.Within (places : Finset Nat) (s : State) : Prop where
  cursor : s.cursor ∈ places
  stop : ∀ rule n entry, s.memo.find? rule n = some entry → entry.stop ∈ places

/-- From `s` to `t` nothing has left the places, no entry has been changed, and entries have been
added at the places only. -/
structure State.Grown (places : Finset Nat) (s t : State) : Prop where
  within : t.Within places
  keeps : ∀ rule n entry, s.memo.find? rule n = some entry → t.memo.find? rule n = some entry
  adds : ∀ rule n, s.memo.find? rule n = none → n ∉ places → t.memo.find? rule n = none

namespace State

variable {places : Finset Nat}

theorem Within.of_find? (h : s.Within places) (hcursor : t.cursor ∈ places)
    (hm : ∀ rule n, t.memo.find? rule n = s.memo.find? rule n) : t.Within places :=
  ⟨hcursor, fun rule n entry he => h.stop rule n entry (hm rule n ▸ he)⟩

theorem Within.grown (h : s.Within places) (hcursor : t.cursor ∈ places)
    (hm : ∀ rule n, t.memo.find? rule n = s.memo.find? rule n) : s.Grown places t :=
  ⟨h.of_find? hcursor hm, fun rule n _ he => (hm rule n).trans he,
    fun rule n he _ => (hm rule n).trans he⟩

theorem Within.refl (h : s.Within places) : s.Grown places s := h.grown h.cursor fun _ _ => rfl

theorem Within.lookup (h : s.Within places) (memoize : Bool) (rule : Rule) :
    s.Grown places (s.lookup memoize rule s.cursor).2 :=
  h.grown (by simpa using h.cursor) fun _ _ => find?_lookup ..

namespace Grown

theorem trans (h : s.Grown places t) (h' : t.Grown places u) : s.Grown places u :=
  ⟨h'.within, fun rule n _ he => h'.keeps rule n _ (h.keeps rule n _ he),
    fun rule n he hn => h'.adds rule n (h.adds rule n he hn) hn⟩

theorem moveTo {n : Nat} (h : s.Grown places t) (hn : n ∈ places) :
    s.Grown places (t.moveTo n) :=
  h.trans (h.within.grown hn fun _ _ => rfl)

theorem store {memoize : Bool} {rule : Rule} {n : Nat} (h : s.Grown places t)
    (hlook : (s.lookup memoize rule n).1 = none) (hn : n ∈ places) (result : Option Node) :
    s.Grown places (t.store memoize rule n ⟨result, t.cursor⟩) := by
  cases memoize with
  | false => exact ⟨h.within.of_find? h.within.cursor fun _ _ => rfl, h.keeps, h.adds⟩
  | true =>
    rw [fst_lookup_true] at hlook
    refine ⟨⟨h.within.cursor, fun rule' n' _ he => ?_⟩, fun rule' n' _ he => ?_,
      fun rule' n' he hn' => ?_⟩
    · rcases find?_store_cases he with ⟨-, -, rfl⟩ | he
      · exact h.within.cursor
      · exact h.within.stop rule' n' _ he
    · -- the new entry takes the place of none that was there before
      rw [memo_store_true, MemoTable.find?_insert, if_neg]
      · exact h.keeps rule' n' _ he
      · rintro ⟨rfl, rfl⟩
        cases hlook.symm.trans he
    · rw [memo_store_true, MemoTable.find?_insert, if_neg]
      · exact h.adds rule' n' he hn'
      · rintro ⟨-, rfl⟩
        exact hn' hn

end Grown

end State

/-- From a state within the places the action leaves nothing but states that have grown. -/
def Action.Grows (x : Action α) (input : Text) (places : Finset Nat) : Prop :=
  ∀ c s, c.input = input → s.Within places → (x c s).Leaves (s.Grown places)

namespace Action

variable {places : Finset Nat}

theorem Grows.of_matched {x : Action α} {a : α} (h : x.Grows c.input places)
    (hs : s.Within places) (hx : x c s = .matched a t) : s.Grown places t := by
  have hleaves := h c s rfl hs
  rw [hx] at hleaves
  exact hleaves

/-- A terminal reads within the input, and entries lead to places that were there before. -/
theorem keeps_grown (hsize : ∀ n ≤ c.input.size, n ∈ places) (hts : ∀ n ∈ ts, n ∈ places) :
    c.Keeps IsTerminal ts fun s t => s.Within places → s.Grown places t where
  refl _ hs := hs.refl
  trans h h' hs := (h hs).trans (h' (h hs).within)
  moveTo _ n hn hs := hs.refl.moveTo (hts n hn)
  rewind h hs := (h hs).moveTo hs.cursor
  terminal s x hx := by
    obtain ⟨rule, token, text, accepts⟩ := hx
    rw [Action.terminal]
    split
    · next hany =>
      obtain ⟨w, hw, -⟩ := (Option.any_eq_true ..).1 hany
      exact fun hs => hs.refl.moveTo (hsize _ (Text.le_size_of_slice? hw))
    · exact fun hs => hs.grown hs.cursor fun _ _ => rfl
  replay hlook hs := (hs.lookup _ _).moveTo (hs.stop _ _ _ (State.fst_lookup_eq_some_iff.1 hlook).2)
  store result hlook h hs :=
    ((hs.lookup _ _).trans (h (hs.lookup _ _).within)).store hlook hs.cursor result

/-- **What is built from terminals keeps to the places**, if every offset of the input is
one and every target. -/
theorem Built.grows {x : Action α} (h : x.Built IsTerminal ts)
    (hsize : ∀ n ≤ input.size, n ∈ places) (hts : ∀ n ∈ ts, n ∈ places) : x.Grows input places := by
  rintro c s rfl hs
  exact (h.leaves (keeps_grown hsize hts) s).mono fun t ht => ht hs

end Action

/-! ### How many entries can be added -/

namespace State

variable {places : Finset Nat}

/-- The rules and places without an entry. -/
def freeKeys (places : Finset Nat) (s : State) : Finset MemoKey :=
  (Rule.all.toFinset ×ˢ places).filter fun k => s.memo.find? k.1 k.2 = none

/-- Number of rules and places without an entry. -/
def free (places : Finset Nat) (s : State) : Nat := (s.freeKeys places).card

theorem free_le (places : Finset Nat) (s : State) :
    s.free places ≤ Rule.all.length * places.card := by
  refine Nat.le_trans (Finset.card_filter_le _ _) ?_
  rw [Finset.card_product]
  exact Nat.mul_le_mul_right _ (List.toFinset_card_le _)

theorem Grown.freeKeys_subset (h : s.Grown places t) :
    t.freeKeys places ⊆ s.freeKeys places := by
  refine Finset.monotone_filter_right _ fun k _ hk => ?_
  cases hs : s.memo.find? k.1 k.2 with
  | none => rfl
  | some entry => cases hk.symm.trans (h.keeps k.1 k.2 entry hs)

theorem Grown.free_le (h : s.Grown places t) : t.free places ≤ s.free places :=
  Finset.card_le_card h.freeKeys_subset

/-- A state that has grown by no entry and is back at the same place is like before. -/
theorem Grown.like (h : s.Grown places t) (hfree : s.free places = t.free places)
    (hcursor : s.cursor = t.cursor) : s.Like t := by
  refine ⟨hcursor, fun rule n => ?_⟩
  cases hs : s.memo.find? rule n with
  | some entry => exact (h.keeps rule n entry hs).symm
  | none =>
    -- among the places a new entry would have left fewer free; elsewhere there is none
    by_cases hn : n ∈ places
    · have hmem : (rule, n) ∈ s.freeKeys places :=
        Finset.mem_filter.2 ⟨Finset.mem_product.2 ⟨List.mem_toFinset.2 rule.mem_all, hn⟩, hs⟩
      rw [← Finset.eq_of_subset_of_card_le h.freeKeys_subset (Nat.le_of_eq hfree)] at hmem
      exact (Finset.mem_filter.1 hmem).2.symm
    · exact (h.adds rule n hs hn).symm

end State

/-! ### How many rounds a repetition has -/

/-- Repeated from the state, the action fails, gets stuck or stays in place in the `k`-th round. -/
inductive Action.EndsIn (x : Action α) (c : Context) : State → Nat → Prop where
  | last {s : State} (h : ∀ a t, x c s = .matched a t → t.cursor = s.cursor) : EndsIn x c s 1
  | step {s t : State} {a : α} {k : Nat} (hx : x c s = .matched a t) (hne : t.cursor ≠ s.cursor)
    (h : EndsIn x c t k) : EndsIn x c s (k + 1)

namespace Action

variable {places : Finset Nat} {x : Action α} {j k : Nat}

theorem exists_endsIn {limit : Nat} (h : manyUpTo x limit c s ≠ .stuck .endless) :
    ∃ k, x.EndsIn c s k := by
  induction limit generalizing s with
  | zero => exact absurd rfl h
  | succ limit ih =>
    by_cases hlast : ∀ a t, x c s = .matched a t → t.cursor = s.cursor
    · exact ⟨1, .last hlast⟩
    · simp only [not_forall] at hlast
      obtain ⟨a, t, hx, hne⟩ := hlast
      rw [manyUpTo_succ_apply, hx] at h
      simp only [if_neg hne] at h
      obtain ⟨k, hk⟩ := ih fun hend => h (by rw [hend]; rfl)
      exact ⟨k + 1, .step hx hne hk⟩

namespace EndsIn

theorem unique (h : x.EndsIn c s j) (h' : x.EndsIn c s k) : j = k := by
  induction h generalizing k with
  | last h =>
    cases h' with
    | last => rfl
    | step hx hne => exact absurd (h _ _ hx) hne
  | step hx hne _ ih =>
    cases h' with
    | last h' => exact absurd (h' _ _ hx) hne
    | step hx' _ h' =>
      obtain ⟨rfl, rfl⟩ := Reply.matched.inj (hx.symm.trans hx')
      rw [ih h']

/-- Repetitions that begin alike have as many rounds. -/
theorem of_like (hsteady : x.Steady) (h : x.EndsIn c s k) (hst : s.Like t) :
    x.EndsIn c t k := by
  induction h generalizing t with
  | @last s h =>
    refine .last fun a t' ht => ?_
    rcases hsteady c s t hst with ⟨b, u, v, hs, ht', huv⟩ | ⟨u, v, hs, ht', -⟩ | ⟨e, hs, ht'⟩
    · obtain ⟨rfl, rfl⟩ := Reply.matched.inj (ht.symm.trans ht')
      rw [← huv.cursor, h _ _ hs, hst.cursor]
    · cases ht.symm.trans ht'
    · cases ht.symm.trans ht'
  | @step s s' a k hx hne _ ih =>
    rcases hsteady c s t hst with ⟨b, u, v, hs, ht, huv⟩ | ⟨u, v, hs, -, -⟩ | ⟨e, hs, -⟩
    · obtain ⟨rfl, rfl⟩ := Reply.matched.inj (hx.symm.trans hs)
      exact .step ht (by rwa [← huv.cursor, ← hst.cursor]) (ih huv)
    · cases hx.symm.trans hs
    · cases hx.symm.trans hs

/-- **No two rounds begin alike**: the numbers of free entries and the places where the rounds
begin, one after the other, have no repetition. -/
theorem exists_trail (hsteady : x.Steady) (hgrows : x.Grows c.input places)
    (h : x.EndsIn c s k) (hs : s.Within places) :
    ∃ l : List (Nat × Nat), l.length = k ∧ l.Nodup ∧ ∀ y ∈ l, ∃ t j, x.EndsIn c t j ∧ j ≤ k ∧
      s.Grown places t ∧ y = (t.free places, t.cursor) := by
  induction h with
  | @last s h =>
    refine ⟨[(s.free places, s.cursor)], rfl, List.nodup_singleton _, fun y hy => ?_⟩
    exact ⟨s, 1, .last h, Nat.le_refl 1, hs.refl, List.mem_singleton.1 hy⟩
  | @step s t a k hx hne hk ih =>
    have hst := hgrows.of_matched hs hx
    obtain ⟨l, hl, hnodup, hmem⟩ := ih hst.within
    refine ⟨(s.free places, s.cursor) :: l, by rw [List.length_cons, hl],
      List.nodup_cons.2 ⟨fun hy => ?_, hnodup⟩, fun y hy => ?_⟩
    · -- a later round that begins like this one would have as many rounds left
      obtain ⟨u, j, hu, hjk, hgrown, heq⟩ := hmem _ hy
      obtain ⟨hfree, hcursor⟩ := Prod.mk.inj heq
      have hlike := (hst.trans hgrown).like hfree hcursor
      have := (hu.of_like hsteady hlike.symm).unique (.step hx hne hk)
      omega
    · rcases List.mem_cons.1 hy with rfl | hy
      · exact ⟨s, k + 1, .step hx hne hk, Nat.le_refl _, hs.refl, rfl⟩
      · obtain ⟨u, j, hu, hjk, hgrown, heq⟩ := hmem y hy
        exact ⟨u, j, hu, Nat.le_succ_of_le hjk, hst.trans hgrown, heq⟩

theorem le (hsteady : x.Steady) (hgrows : x.Grows c.input places) (h : x.EndsIn c s k)
    (hs : s.Within places) : k ≤ (Rule.all.length * places.card + 1) * places.card := by
  obtain ⟨l, rfl, hnodup, hmem⟩ := h.exists_trail hsteady hgrows hs
  -- the pairs are all different, and there are not so many of them
  have hsub : l.toFinset ⊆ Finset.range (s.free places + 1) ×ˢ places := by
    intro y hy
    obtain ⟨t, j, -, -, hgrown, rfl⟩ := hmem y (List.mem_toFinset.1 hy)
    exact Finset.mem_product.2 ⟨Finset.mem_range.2 (Nat.lt_succ_of_le hgrown.free_le),
      hgrown.within.cursor⟩
  have hcard := Finset.card_le_card hsub
  rw [List.toFinset_card_of_nodup hnodup, Finset.card_product, Finset.card_range] at hcard
  exact Nat.le_trans hcard (Nat.mul_le_mul_right _ (Nat.succ_le_succ (s.free_le places)))

/-- A repetition that ends does so with every limit that leaves it its rounds, if the action goes on
as before. -/
theorem manyUpTo_eq {c' : Context} {limit m : Nat} (h : x.EndsIn c s k)
    (hgrows : x.Grows c.input places) (hs : s.Within places)
    (hsame : ∀ s, s.Within places → x c s ≠ .stuck .endless → x c' s = x c s)
    (hend : manyUpTo x limit c s ≠ .stuck .endless) (hm : k ≤ m) :
    manyUpTo x m c' s = manyUpTo x limit c s := by
  induction h generalizing limit m with
  | @last s hlast =>
    cases limit with
    | zero => exact absurd rfl hend
    | succ limit =>
      obtain ⟨m, rfl⟩ : ∃ l, m = l + 1 := ⟨m - 1, by omega⟩
      have hround := hsame s hs fun he => hend (by rw [manyUpTo_succ_apply, he])
      rw [manyUpTo_succ_apply, manyUpTo_succ_apply, hround]
      cases hx : x c s with
      | matched a t => simp only [hlast a t hx, ↓reduceIte]
      | failed t => rfl
      | stuck e => rfl
  | @step s t a k hx hne hk ih =>
    cases limit with
    | zero => exact absurd rfl hend
    | succ limit =>
      obtain ⟨m, rfl⟩ : ∃ l, m = l + 1 := ⟨m - 1, by omega⟩
      have hround := hsame s hs fun he => hend (by rw [manyUpTo_succ_apply, he])
      rw [manyUpTo_succ_apply, hx] at hend
      simp only [hne, ↓reduceIte] at hend
      rw [manyUpTo_succ_apply, manyUpTo_succ_apply, hround, hx]
      simp only [hne, ↓reduceIte]
      rw [ih (hgrows.of_matched hs hx).within (fun he => hend (by rw [he]; rfl)) (by omega)]

end EndsIn

/-- With enough rounds the action goes on as it does with any number of rounds that it ends with. -/
def EndsWithin (x : Action α) (input : Text) (places : Finset Nat) (enough : Nat) : Prop :=
  ∀ c s, c.input = input → s.Within places → x c s ≠ .stuck .endless →
    ∀ m, enough ≤ m → x ⟨c.input, c.memoize, m⟩ s = x c s

/-- **There are enough rounds** for what is built from terminals, if there is one for each
number of free entries and each place. -/
theorem Built.endsWithin {enough : Nat} (h : x.Built IsTerminal ts)
    (hsize : ∀ n ≤ input.size, n ∈ places) (hts : ∀ n ∈ ts, n ∈ places)
    (henough : (Rule.all.length * places.card + 1) * places.card ≤ enough) :
    x.EndsWithin input places enough := by
  induction h with
  | pure | fail | reversed | cursor | moveTo => exact fun c s _ _ _ m _ => rfl
  | terminal h =>
    obtain ⟨rule, token, text, accepts⟩ := h
    exact fun c s _ _ _ m _ => rfl
  | map _ f ih =>
    intro c s hc hs hend m hm
    rw [map_apply, map_apply, ih c s hc hs (fun he => hend (by rw [map_apply, he]; rfl)) m hm]
  | @bind _ _ x f hx _ ihx ihf =>
    intro c s hc hs hend m hm
    have hsame := ihx c s hc hs (fun he => hend (by rw [bind_apply, he]; rfl)) m hm
    rw [bind_apply] at hend
    rw [bind_apply, bind_apply, hsame]
    rcases (hx.grows hsize hts c s hc hs).cases with ⟨a, t, ht, hgrown⟩ | ⟨t, ht, -⟩ | ⟨e, ht⟩
    · rw [ht] at hend ⊢
      exact ihf a c t hc hgrown.within hend m hm
    · rw [ht]
      rfl
    · rw [ht]
      rfl
  | sequence _ ih =>
    intro c s hc hs hend m hm
    rw [Action.sequence, Action.sequence,
      ih c s hc hs (fun he => hend (by rw [Action.sequence, he])) m hm]
  | optional _ ih =>
    intro c s hc hs hend m hm
    rw [Action.optional, Action.optional,
      ih c s hc hs (fun he => hend (by rw [Action.optional, he])) m hm]
  | @choice _ xs h ih =>
    induction xs with
    | nil => exact fun c s _ _ _ m _ => rfl
    | cons x xs ihxs =>
      intro c s hc hs hend m hm
      have hsame := ih x List.mem_cons_self c s hc hs
        (fun he => hend (by rw [choice_cons_apply, he])) m hm
      rw [choice_cons_apply] at hend
      rw [choice_cons_apply, choice_cons_apply, hsame]
      rcases ((h x List.mem_cons_self).grows hsize hts c s hc hs).cases with
        ⟨a, t, ht, -⟩ | ⟨t, ht, hgrown⟩ | ⟨e, ht⟩
      · rw [ht]
      · rw [ht] at hend ⊢
        exact ihxs (fun y hy => h y (List.mem_cons_of_mem x hy))
          (fun y hy => ih y (List.mem_cons_of_mem x hy)) c _ hc (hgrown.moveTo hs.cursor).within
          hend m hm
      · rw [ht]
  | @many _ x hx ih =>
    intro c s hc hs hend m hm
    -- the rounds go on as before, and there are no more of them than the bound
    obtain ⟨k, hk⟩ := exists_endsIn hend
    have hgrows : x.Grows c.input places := hc ▸ hx.grows hsize hts
    have hle := Nat.le_trans (hk.le hx.steady hgrows hs) (Nat.le_trans henough hm)
    exact hk.manyUpTo_eq hgrows hs (fun s hs hend => ih c s hc hs hend m hm) hend hle
  | @memoized α _ x _ rule ih =>
    intro c s hc hs hend m hm
    cases hlook : (s.lookup c.memoize rule s.cursor).1 with
    | some entry =>
      rw [memoized_of_lookup_some hlook,
        memoized_of_lookup_some (c := ⟨c.input, c.memoize, m⟩) hlook, replay_apply, replay_apply]
    | none =>
      have hsame := ih c _ hc (hs.lookup c.memoize rule).within
        (fun he => hend (by rw [memoized_of_lookup hlook, he])) m hm
      rw [memoized_of_lookup hlook, memoized_of_lookup (c := ⟨c.input, c.memoize, m⟩) hlook, hsame]

end Action

/-! ### Evaluations -/

namespace Parser

/-- Where the cursor of the parser can get in an evaluation: to the offsets of the input, the ends
of the entries and the offsets that the expression names. -/
def places (p : Parser) (e : Expr) : Finset Nat :=
  Finset.range (p.input.size + 1) ∪
    (p.state.memo.entries.toList.map fun k => k.2.stop).toFinset ∪
      insert p.state.cursor e.targets.toFinset

theorem card_places_le (p : Parser) (e : Expr) :
    (p.places e).card ≤ p.input.size + p.state.memo.size + e.moves + 2 := by
  have hstops : (p.state.memo.entries.toList.map fun k => k.2.stop).toFinset.card ≤
      p.state.memo.size := by
    refine Nat.le_trans (List.toFinset_card_le _) ?_
    rw [List.length_map, Std.TreeMap.length_toList, MemoTable.size]
  have htargets : (insert p.state.cursor e.targets.toFinset).card ≤ e.moves + 1 := by
    refine Nat.le_trans (Finset.card_insert_le _ _) (Nat.succ_le_succ ?_)
    rw [← e.length_targets]
    exact List.toFinset_card_le _
  have hleft := Finset.card_union_le (Finset.range (p.input.size + 1))
    (p.state.memo.entries.toList.map fun k => k.2.stop).toFinset
  rw [Finset.card_range] at hleft
  refine Nat.le_trans (Finset.card_union_le _ _) ?_
  omega

theorem within_places (p : Parser) (e : Expr) (calls : List Call) :
    State.Within (p.places e) { p.state with calls } := by
  refine ⟨Finset.mem_union_right _ (Finset.mem_insert_self _ _), fun rule n entry he => ?_⟩
  refine Finset.mem_union_left _ (Finset.mem_union_right _ (List.mem_toFinset.2 ?_))
  exact List.mem_map_of_mem (Std.TreeMap.mem_toList_iff_getElem?_eq_some.2 he)

theorem mem_places_of_le {p : Parser} {e : Expr} {n : Nat} (h : n ≤ p.input.size) :
    n ∈ p.places e :=
  Finset.mem_union_left _ (Finset.mem_union_left _ (Finset.mem_range.2 (Nat.lt_succ_of_le h)))

theorem mem_places_of_mem_targets {p : Parser} {e : Expr} {n : Nat} (h : n ∈ e.targets) :
    n ∈ p.places e :=
  Finset.mem_union_right _ (Finset.mem_insert_of_mem (List.mem_toFinset.2 h))

/-- An evaluation changes no entry, and adds some at its places only. -/
theorem grown_eval (p : Parser) (e : Expr) (moves : Nat) (calls : List Call) :
    (e.eval (p.context moves) { p.state with calls }).Leaves
      (State.Grown (p.places e) { p.state with calls }) :=
  (e.built (List.Subset.refl _)).grows (fun _ => mem_places_of_le)
    (fun _ => mem_places_of_mem_targets) _ _ rfl (p.within_places e calls)

/-- **A parser takes enough rounds**: an evaluation that ends with some number of rounds ends in the
same way with those of the parser. -/
theorem eval_eq_of_rounds {p : Parser} {e : Expr} {n : Nat}
    (h : e.eval ⟨p.input, p.memoize, n⟩ { p.state with calls := [] } ≠ .stuck .endless) :
    e.eval (p.context e.moves) { p.state with calls := [] } =
      e.eval ⟨p.input, p.memoize, n⟩ { p.state with calls := [] } := by
  have hcard := p.card_places_le e
  -- `Parser.rounds` is this bound for as many places as there can be
  have henough : (Rule.all.length * (p.places e).card + 1) * (p.places e).card ≤
      p.rounds e.moves :=
    Nat.mul_le_mul (Nat.succ_le_succ (Nat.mul_le_mul_left _ hcard)) (Nat.le_succ_of_le hcard)
  exact (e.built (List.Subset.refl _)).endsWithin (fun _ => mem_places_of_le)
    (fun _ => mem_places_of_mem_targets) henough _ _ rfl (p.within_places e []) h _ (Nat.le_refl _)

/-- **A step that gets stuck as endless is endless**, with any number of rounds. -/
theorem step_eval_endless_iff {p : Parser} {e : Expr} :
    p.step (.eval e) = .error .endless ↔
      ∀ n, e.eval ⟨p.input, p.memoize, n⟩ { p.state with calls := [] } = .stuck .endless := by
  have hstep : p.step (.eval e) = .error .endless ↔
      e.eval (p.context e.moves) { p.state with calls := [] } = .stuck .endless := by
    simp only [step]
    cases e.eval (p.context e.moves) { p.state with calls := [] } <;> simp
  rw [hstep]
  refine ⟨fun h n => ?_, fun h => h _⟩
  by_cases hn : e.eval ⟨p.input, p.memoize, n⟩ { p.state with calls := [] } = .stuck .endless
  · exact hn
  · exact (eval_eq_of_rounds hn).symm.trans h

end Parser

end TagQuery
