import TagQuery.Proofs.History

/-!
# What a memo table holds

A parser that fills its memo table by its rules alone has nothing in it but what they come to: the
entry of a rule at an offset is what the rule answers there without a memo table, and it is nothing
or a node of the kind of the rule, with the span from the offset to where the entry ends.

The invariant is that of `Parser.Shows`, which a question to the table keeps as well.  What it says
about one entry follows from what rules come to (`Entry.Genuine`), and `entries_genuine` says it of
a session.
-/

namespace TagQuery

variable {input : Text} {v : View} {p q : Parser} {rule : Rule} {n : Nat} {entry : Entry}

/-- The answer of an evaluation that comes to the entry. -/
def Entry.answer (entry : Entry) : Answer :=
  match entry.result with
  | some x => .matched (.node x)
  | none => .failed

/-- The step may ask the memo table, but fills it with nothing but what rules come to. -/
def Step.isGenuine : Step → Bool
  | .lookup .. => true
  | x => x.isPlain

/-! ### One entry -/

/-- Without a memo table the rule comes to the entry. -/
def Entry.Genuine (input : Text) (rule : Rule) (n : Nat) (entry : Entry) : Prop :=
  ∃ failures, rule.action.Computes input n ⟨entry.result, entry.stop, failures⟩

namespace Entry.Genuine

theorem exists_step (h : entry.Genuine q.input rule q.state.cursor) (hq : q.memoize = false) :
    ∃ r, q.step (.eval (.rule rule)) = .ok r ∧ r.answer = entry.answer ∧
      r.parser.state.cursor = entry.stop := by
  obtain ⟨failures, hcomp⟩ := h
  obtain ⟨t, ht, hl⟩ := hcomp.map Value.node (q.rounds 0) { q.state with calls := [] }
    (q.size_lt_rounds 0) rfl
  have heval : (Expr.rule rule).eval (q.context 0) { q.state with calls := [] } =
      ((⟨entry.result, entry.stop, failures⟩ : Outcome Node).map Value.node).reply t := by
    rw [Parser.context, hq]
    exact ht
  have hstep : q.step (.eval (.rule rule)) = .ok (q.report entry.answer t) := by
    obtain ⟨result, stop⟩ := entry
    cases result <;> simp only [Parser.step, Expr.moves, heval] <;> rfl
  exact ⟨_, hstep, rfl, hl.cursor⟩

theorem exists_part (h : entry.Genuine input rule n) :
    ∃ o : Outcome Node, o.result = entry.result ∧ o.stop = entry.stop ∧
      o.Part input n rule.nodeKind := by
  obtain ⟨failures, hcomp⟩ := h
  -- what a rule comes to is determined by the text and the offset
  obtain ⟨o, ho, hpart⟩ := rule.exists_part input n
  obtain ⟨hresult, hstop, -⟩ := ho.computes.unique hcomp
  exact ⟨o, hresult, hstop, hpart⟩

end Entry.Genuine

/-! ### What steps keep -/

namespace Parser

theorem Shows.genuine (h : p.Shows input v) (hmemoize : p.memoize = true)
    (he : p.state.memo.find? rule n = some entry) : entry.Genuine input rule n := by
  obtain ⟨rfl, -, hs⟩ := h
  obtain ⟨failures, hcomp, -⟩ := hs hmemoize rule n entry he
  exact ⟨failures, hcomp⟩

theorem Shows.lookup (h : p.Shows input v) (rule : Rule) (n : Nat) :
    ∃ r, p.step (.lookup rule n) = .ok r ∧ r.parser.Shows input v := by
  have hs := (h.sound_calls []).lookup rule n
  obtain ⟨rfl, rfl, -⟩ := h
  let asked := ({ p.state with calls := [] } : State).lookup p.memoize rule n
  refine ⟨p.report (.entry asked.1) asked.2, rfl, rfl, ?_, hs⟩
  simp only [report, view, asked, State.cursor_lookup, State.furthest_lookup]

/-- **One step**: nothing gets stuck, and the memo table stays sound. -/
theorem shows_step (p : Parser) (x : Step) (h : ∃ v, p.Shows input v) (hx : x.isGenuine) :
    ∃ r, p.step x = .ok r ∧ ∃ v, r.parser.Shows input v := by
  obtain ⟨v, h⟩ := h
  by_cases hlookup : ∃ rule n, x = .lookup rule n
  · obtain ⟨rule, n, rfl⟩ := hlookup
    obtain ⟨r, hr, hshows⟩ := h.lookup rule n
    exact ⟨r, hr, v, hshows⟩
  · have hplain : x.isPlain := by
      cases x with
      | lookup rule n => exact absurd ⟨rule, n, rfl⟩ hlookup
      | _ => exact hx
    obtain ⟨seen, hseen⟩ := Step.exists_seen hplain input v
    obtain ⟨r, hr, -, hshows⟩ := hseen p h
    exact ⟨r, hr, seen.2, hshows⟩

end Parser

/-- **The memo table holds what the rules come to.**  Whatever a new parser with a memo table has
been asked to do, fillings of the table by hand and expressions with memo entries or moves of their
own apart, each entry is the answer of its rule, evaluated at its offset without a memo table, with
the cursor where that leaves it.  A failure is stored with the offset itself; a node is of the kind
of the rule, and was read from the offset to a place further on in the input. -/
theorem entries_genuine (s : String) (xs : List Step) (hxs : ∀ x ∈ xs, x.isGenuine) :
    ∃ rs, (Parser.new s true).steps xs = (rs, none) ∧
      ∀ rule n entry, ((Parser.new s true).after rs).state.memo.find? rule n = some entry →
        (∀ q : Parser, q.input = s.toList → q.memoize = false → q.state.cursor = n →
          ∃ r, q.step (.eval (.rule rule)) = .ok r ∧ r.answer = entry.answer ∧
            r.parser.state.cursor = entry.stop) ∧
          (entry.result = none → entry.stop = n) ∧
            ∀ x, entry.result = some x → n < entry.stop ∧ entry.stop ≤ Text.size s.toList ∧
              x.kind = rule.nodeKind ∧ Span.ofOffsets? n entry.stop = some x.span := by
  obtain ⟨rs, hrs, v, hshows⟩ := Parser.exists_steps Parser.shows_step
    ⟨_, Parser.shows_new s true⟩ hxs
  refine ⟨rs, hrs, fun rule n entry he => ?_⟩
  have hgenuine := hshows.genuine (Parser.input_after hrs).2 he
  obtain ⟨o, hresult, hstop, hpart⟩ := hgenuine.exists_part
  refine ⟨fun q hinput hq hn => ?_, fun hnone => ?_, fun x hx => ?_⟩
  · rw [← hinput, ← hn] at hgenuine
    exact hgenuine.exists_step hq
  · rw [← hstop]
    exact hpart.stop_eq (hresult.trans hnone)
  · rw [← hstop]
    exact hpart.of_result (hresult.trans hx)

/-- After a run over a negated tag, and an evaluation inside of it, the entry of the tag is the one
that the rule comes to behind the `-`. -/
theorem entries_genuine_negated :
    let xs : List Step := [.run, .lookup .tag 1, .moveTo 3, .eval (.rule .query)]
    let q : Parser := { Parser.new "-booster" false with state := State.initial.moveTo 1 }
    (∀ x ∈ xs, x.isGenuine) ∧ ∃ rs, (Parser.new "-booster" true).steps xs = (rs, none) ∧
      ∃ entry x, ((Parser.new "-booster" true).after rs).state.memo.find? .tag 1 = some entry ∧
        (∃ r, q.step (.eval (.rule .tag)) = .ok r ∧ r.answer = entry.answer ∧
          r.parser.state.cursor = entry.stop) ∧
        entry.result = some x ∧ 1 < entry.stop ∧ entry.stop ≤ 8 ∧ x.kind = .tag ∧
          Span.ofOffsets? 1 entry.stop = some x.span := by
  intro xs q
  have hxs : ∀ x ∈ xs, x.isGenuine := by decide
  obtain ⟨rs, hrs, hentries⟩ := entries_genuine "-booster" xs hxs
  have hfound : ((((Parser.new "-booster" true).after rs).state.memo.find? .tag 1).bind
      Entry.result).isSome := by
    have h : ((((Parser.new "-booster" true).after
        ((Parser.new "-booster" true).steps xs).1).state.memo.find? .tag 1).bind
          Entry.result).isSome := by decide +kernel
    rwa [hrs] at h
  obtain ⟨x, hx⟩ := Option.isSome_iff_exists.1 hfound
  obtain ⟨entry, he, hresult⟩ := Option.bind_eq_some_iff.1 hx
  obtain ⟨hsame, -, hpart⟩ := hentries .tag 1 entry he
  exact ⟨hxs, rs, hrs, entry, x, he, hsame q rfl rfl rfl, hresult, hpart x hresult⟩

end TagQuery
