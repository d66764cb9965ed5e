import TagQuery.Grammar.Expr

/-!
# How actions are built

Whatever a parser is asked to do is put together from terminals and a few other basic actions by the
combinators (`Action.Built`): the rules of the grammar are (`Rule.built`), and so is every
expression (`Expr.built`).  A property that the basic actions have and the combinators keep is then
a property of all of them, by induction on how they are built.

For properties of what an action does to the state this induction is done here: a relation that
the parts hand on to the whole (`State.Chains`) and that the basic actions keep (`Context.Keeps`)
holds between the states before and after whatever is built from them (`Action.Built.leaves`).

Two things are parameters: which terminals there are, and the offsets that the cursor may be moved
to from outside.  The rules need the terminals of the grammar only (`Grammar.Terminal`) and move the
cursor nowhere by hand; an expression has any terminals (`Action.IsTerminal`) and moves the cursor
to the offsets that it names (`Expr.targets`).
-/

namespace TagQuery

variable {α β : Type} {T T' : Action Span → Prop} {ts : List Nat}

/-- The action is put together from the basic ones by the combinators.  Its terminals are among `T`,
and it moves the cursor by hand to `ts` only. -/
inductive Action.Built (T : Action Span → Prop) (ts : List Nat) : {α : Type} → Action α → Prop where
  | pure {α : Type} (a : α) : Built T ts (pure a : Action α)
  | fail {α : Type} : Built T ts (fail : Action α)
  | reversed {α : Type} : Built T ts (orStuck .reversedSpan none : Action α)
  | cursor : Built T ts cursor
  | moveTo {n : Nat} (h : n ∈ ts) : Built T ts (moveTo n)
  | terminal {x : Action Span} (h : T x) : Built T ts x
  | map {α β : Type} {x : Action α} (h : Built T ts x) (f : α → β) : Built T ts (f <$> x)
  | bind {α β : Type} {x : Action α} {f : α → Action β} (h : Built T ts x)
    (hf : ∀ a, Built T ts (f a)) : Built T ts (x >>= f)
  | sequence {α : Type} {x : Action α} (h : Built T ts x) : Built T ts (sequence x)
  | optional {α : Type} {x : Action α} (h : Built T ts x) : Built T ts (optional x)
  | choice {α : Type} {xs : List (Action α)} (h : ∀ x ∈ xs, Built T ts x) :
    Built T ts (choice xs)
  | many {α : Type} {x : Action α} (h : Built T ts x) : Built T ts (many x)
  | memoized {α : Type} [Fragment α] {x : Action α} (h : Built T ts x) (rule : Rule) :
    Built T ts (memoized rule x)

namespace Action.Built

theorem ofOption (o : Option α) : (ofOption o).Built T ts := by
  cases o with
  | some a => exact pure a
  | none => exact fail

theorem orStuck (o : Option α) : (orStuck .reversedSpan o).Built T ts := by
  cases o with
  | some a => exact pure a
  | none => exact reversed

theorem chain {xs : List (Action α)} (h : ∀ x ∈ xs, x.Built T ts) : (chain xs).Built T ts := by
  induction xs with
  | nil => exact pure []
  | cons x xs ih =>
    have hxs := ih fun y hy => h y (List.mem_cons_of_mem x hy)
    exact (h x List.mem_cons_self).bind fun a => hxs.bind fun as => pure (a :: as)

theorem mono {x : Action α} (h : x.Built T ts) (hT : ∀ x, T x → T' x) : x.Built T' ts := by
  induction h with
  | pure a => exact pure a
  | fail => exact fail
  | reversed => exact reversed
  | cursor => exact cursor
  | moveTo h => exact moveTo h
  | terminal h => exact terminal (hT _ h)
  | map _ f ih => exact ih.map f
  | bind _ _ ih ihf => exact ih.bind ihf
  | sequence _ ih => exact ih.sequence
  | optional _ ih => exact ih.optional
  | choice _ ih => exact choice ih
  | many _ ih => exact ih.many
  | memoized _ rule ih => exact ih.memoized rule

end Action.Built

/-! ### What actions keep -/

/-- The state that the reply leaves, if any, has the property. -/
def Reply.Leaves (P : State → Prop) : Reply α → Prop
  | matched _ t | failed t => P t
  | stuck _ => True

namespace Reply.Leaves

variable {P Q : State → Prop} {r : Reply α}

theorem mono (h : r.Leaves P) (himp : ∀ t, P t → Q t) : r.Leaves Q := by
  cases r with
  | matched a t => exact himp t h
  | failed t => exact himp t h
  | stuck e => trivial

theorem map (h : r.Leaves P) (f : α → β) : (r.map f).Leaves P := by
  cases r <;> exact h

theorem of_imp {A : Prop} (h : A → r.Leaves P) : r.Leaves fun t => A → P t := by
  cases r with
  | matched a t => exact h
  | failed t => exact h
  | stuck e => trivial

theorem cases (h : r.Leaves P) : (∃ a t, r = matched a t ∧ P t) ∨ (∃ t, r = failed t ∧ P t) ∨
    ∃ e, r = stuck e := by
  cases r with
  | matched a t => exact Or.inl ⟨a, t, rfl, h⟩
  | failed t => exact Or.inr (Or.inl ⟨t, rfl, h⟩)
  | stuck e => exact Or.inr (Or.inr ⟨e, rfl⟩)

end Reply.Leaves

/-- A relation between the state before and the state after an action that parts of an action hand
on: it may be composed, and the cursor may go back to where it was. -/
structure State.Chains (R : State → State → Prop) : Prop where
  refl : ∀ s, R s s
  trans : ∀ {s t u}, R s t → R t u → R s u
  rewind : ∀ {s t}, R s t → R s (t.moveTo s.cursor)

/-- The basic actions keep such a relation: it holds of the terminals and of the moves, and an
outcome may be replayed, or stored where there was none. -/
structure Context.Keeps (c : Context) (T : Action Span → Prop) (ts : List Nat)
    (R : State → State → Prop) : Prop extends State.Chains R where
  moveTo : ∀ s, ∀ n ∈ ts, R s (s.moveTo n)
  terminal : ∀ s x, T x → (x c s).Leaves (R s)
  replay : ∀ {s rule entry}, (s.lookup c.memoize rule s.cursor).1 = some entry →
    R s ((s.lookup c.memoize rule s.cursor).2.moveTo entry.stop)
  store : ∀ {s t rule} (result : Option Node), (s.lookup c.memoize rule s.cursor).1 = none →
    R (s.lookup c.memoize rule s.cursor).2 t →
      R s (t.store c.memoize rule s.cursor ⟨result, t.cursor⟩)

namespace Action

variable {c : Context} {R : State → State → Prop}

theorem leaves_bind {x : Action α} {f : α → Action β} (hR : State.Chains R)
    (hx : ∀ s, (x c s).Leaves (R s)) (hf : ∀ a s, (f a c s).Leaves (R s)) (s : State) :
    ((x >>= f) c s).Leaves (R s) := by
  rcases (hx s).cases with ⟨a, t, hx, ht⟩ | ⟨t, hx, ht⟩ | ⟨e, hx⟩ <;> rw [bind_apply, hx]
  · exact (hf a t).mono fun u hu => hR.trans ht hu
  · exact ht
  · trivial

/-- Each alternative begins where the choice does, with what the ones before it have left. -/
theorem leaves_choice {xs : List (Action α)} (hR : State.Chains R)
    (h : ∀ x ∈ xs, ∀ s, (x c s).Leaves (R s)) (s : State) : (choice xs c s).Leaves (R s) := by
  -- for the induction the choice may begin in any state that came of `s`, with the cursor back
  have key : ∀ t, t.cursor = s.cursor → R s t → (choice xs c t).Leaves (R s) := by
    induction xs with
    | nil => exact fun t _ ht => ht
    | cons x xs ih =>
      intro t hcursor ht
      have hxt := (h x List.mem_cons_self t).mono fun u hu => hR.trans ht hu
      rcases hxt.cases with ⟨a, u, hx, hu⟩ | ⟨u, hx, hu⟩ | ⟨e, hx⟩ <;> rw [choice_cons_apply, hx]
      · exact hu
      · rw [hcursor]
        exact ih (fun y hy => h y (List.mem_cons_of_mem x hy)) _ rfl (hR.rewind hu)
      · trivial
  exact key s rfl (hR.refl s)

theorem leaves_manyUpTo {x : Action α} (hR : State.Chains R) (h : ∀ s, (x c s).Leaves (R s))
    (limit : Nat) (s : State) : (manyUpTo x limit c s).Leaves (R s) := by
  induction limit generalizing s with
  | zero => trivial
  | succ limit ih =>
    rw [manyUpTo_succ_apply]
    rcases (h s).cases with ⟨a, t, hx, ht⟩ | ⟨t, hx, ht⟩ | ⟨e, hx⟩ <;> rw [hx]
    · dsimp only
      split
      · exact ht
      · exact ((ih t).mono fun u hu => hR.trans ht hu).map _
    · exact hR.rewind ht
    · trivial

theorem leaves_memoized [Fragment α] {x : Action α} (hR : c.Keeps T ts R)
    (h : ∀ s, (x c s).Leaves (R s)) (rule : Rule) (s : State) :
    (memoized rule x c s).Leaves (R s) := by
  cases hlook : (s.lookup c.memoize rule s.cursor).1 with
  | some entry =>
    -- the cursor goes to the end of the entry, whether its node is of the right type or not
    rw [memoized_of_lookup_some hlook, replay_apply]
    cases entry.result.bind (Fragment.ofNode? (α := α)) with
    | none => exact hR.replay hlook
    | some a => exact hR.replay hlook
  | none =>
    rw [memoized_of_lookup hlook]
    rcases (h (s.lookup c.memoize rule s.cursor).2).cases with
      ⟨a, t, hx, ht⟩ | ⟨t, hx, ht⟩ | ⟨e, hx⟩ <;> rw [hx]
    · exact hR.store _ hlook ht
    · exact hR.store _ hlook ht
    · trivial

/-- **What the basic actions keep, every action built from them keeps.** -/
theorem Built.leaves {x : Action α} (h : x.Built T ts) (hR : c.Keeps T ts R) (s : State) :
    (x c s).Leaves (R s) := by
  induction h generalizing s with
  | pure a => exact hR.refl s
  | fail => exact hR.refl s
  | reversed => trivial
  | cursor => exact hR.refl s
  | moveTo hn => exact hR.moveTo s _ hn
  | terminal hx => exact hR.terminal s _ hx
  | map _ f ih => exact (ih s).map f
  | bind _ _ ihx ihf => exact leaves_bind hR.toChains ihx ihf s
  | sequence _ ih =>
    rcases (ih s).cases with ⟨a, t, hx, ht⟩ | ⟨t, hx, ht⟩ | ⟨e, hx⟩ <;> rw [Action.sequence, hx]
    · exact ht
    · exact hR.rewind ht
    · trivial
  | optional _ ih =>
    rcases (ih s).cases with ⟨a, t, hx, ht⟩ | ⟨t, hx, ht⟩ | ⟨e, hx⟩ <;> rw [Action.optional, hx]
    · exact ht
    · exact hR.rewind ht
    · trivial
  | choice _ ih => exact leaves_choice hR.toChains ih s
  | many _ ih => exact leaves_manyUpTo hR.toChains ih c.rounds s
  | memoized _ rule ih => exact leaves_memoized hR ih rule s

end Action

/-! ### The rules -/

/-- A terminal. -/
inductive Action.IsTerminal : Action Span → Prop where
  | mk (rule : Rule) (token : Token) (text : Text) (accepts : Text → Bool) :
    IsTerminal (terminal rule token text accepts)

namespace Grammar

open TagQuery.Action

/-- The terminals of the grammar. -/
inductive Terminal : Action Span → Prop where
  | sign : Terminal (literal .negation "-")
  | space : Terminal (literal .query " ")
  | operator {row : String × BinaryOp} (h : row ∈ operators) : Terminal (literal .binaryOp row.1)
  | tag (tag : Tag) : Terminal (phrase tag.category.rule tag.phrase)

theorem Terminal.isTerminal {x : Action Span} (h : Terminal x) : x.IsTerminal := by
  cases h <;> exact .mk ..

theorem negation_built : negation.Built Terminal ts := (Built.terminal .sign).memoized _

theorem binaryOp_built : binaryOp.Built Terminal ts := by
  refine (Built.choice fun x hx => ?_).memoized _
  obtain ⟨row, hrow, rfl⟩ := List.mem_map.1 hx
  exact (Built.terminal (.operator hrow)).map _

theorem category_built (c : Category) : (category c).Built Terminal ts := by
  refine (Built.choice fun x hx => ?_).memoized _
  obtain ⟨tag, -, rfl⟩ := List.mem_map.1 hx
  exact (Built.terminal (.tag tag)).map _

theorem tag_built : Grammar.tag.Built Terminal ts := by
  refine (Built.choice fun x hx => ?_).memoized _
  obtain ⟨c, -, rfl⟩ := List.mem_map.1 hx
  exact category_built c

theorem identifier_built : identifier.Built Terminal ts :=
  (negation_built.optional.bind fun _ => tag_built.bind fun _ => .orStuck _).sequence.memoized _

theorem clause_built : clause.Built Terminal ts := by
  have hspaces : spaces.Built Terminal ts := (Built.terminal .space).many.map _
  exact (hspaces.bind fun _ => binaryOp_built.bind fun _ => hspaces.bind fun _ =>
    identifier_built.bind fun _ => .pure _).sequence

theorem query_built : query.Built Terminal ts :=
  (Built.cursor.bind fun _ => identifier_built.bind fun _ => clause_built.many.bind fun _ =>
    Built.cursor.bind fun _ => (Built.orStuck _).bind fun _ => .pure _).sequence.memoized _

end Grammar

/-- **Every rule is built from the terminals of the grammar.** -/
theorem Rule.built (rule : Rule) : rule.action.Built Grammar.Terminal ts := by
  cases rule with
  | query => exact Grammar.query_built.map _
  | identifier => exact Grammar.identifier_built.map _
  | negation => exact Grammar.negation_built.map _
  | binaryOp => exact Grammar.binaryOp_built.map _
  | tag => exact Grammar.tag_built.map _
  | contemporaryMeaning => exact (Grammar.category_built _).map _
  | syntacticFunction => exact (Grammar.category_built _).map _

/-! ### Expressions -/

namespace Expr

mutual

/-- The offsets that an expression moves the cursor to by hand. -/
def targets : Expr → List Nat
  | .chain parts | .seq parts | .choice parts => targetsAll parts
  | .many part | .opt part | .memo _ _ part => part.targets
  | .moveTo n => [n]
  | .literal .. | .phrase .. | .rule _ | .empty | .fail => []

/-- The offsets that expressions move the cursor to by hand. -/
def targetsAll : List Expr → List Nat
  | [] => []
  | part :: parts => part.targets ++ targetsAll parts

end

mutual

theorem length_targets : (e : Expr) → e.targets.length = e.moves
  | .chain parts | .seq parts | .choice parts => length_targetsAll parts
  | .many part | .opt part | .memo _ _ part => length_targets part
  | .moveTo _ => rfl
  | .literal .. | .phrase .. | .rule _ | .empty | .fail => rfl

theorem length_targetsAll : (parts : List Expr) → (targetsAll parts).length = movesAll parts
  | [] => rfl
  | part :: parts => by
    rw [targetsAll, movesAll, List.length_append, length_targets part, length_targetsAll parts]

end

mutual

/-- **Every expression is built from terminals.** -/
theorem built : (e : Expr) → e.targets ⊆ ts → e.eval.Built Action.IsTerminal ts
  | .literal .., _ => (Action.Built.terminal (.mk ..)).map _
  | .phrase .., _ => (Action.Built.terminal (.mk ..)).map _
  | .rule r, _ => (r.built.mono fun _ h => h.isTerminal).map _
  | .chain parts, h => (Action.Built.chain (builtAll parts h)).map _
  | .seq parts, h => (Action.Built.chain (builtAll parts h)).sequence.map _
  | .choice parts, h => .choice (builtAll parts h)
  | .many part, h => (built part h).many.map _
  | .opt part, h => (built part h).optional.map _
  | .memo r _ part, h => (((built part h).bind fun _ => .ofOption _).memoized r).map _
  | .moveTo _, h => (Action.Built.moveTo (h List.mem_cons_self)).map _
  | .empty, _ => .pure _
  | .fail, _ => .fail

theorem builtAll : (parts : List Expr) → targetsAll parts ⊆ ts →
    ∀ x ∈ evalAll parts, x.Built Action.IsTerminal ts
  | [], _ => by simp [evalAll]
  | part :: parts, h => by
    obtain ⟨h₁, h₂⟩ := List.append_subset.1 h
    intro x hx
    rcases List.mem_cons.1 hx with rfl | hx
    · exact built part h₁
    · exact builtAll parts h₂ x hx

end

end Expr

end TagQuery
