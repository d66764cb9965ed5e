import TagQuery.Proofs.Exactness
import TagQuery.Proofs.Settling

/-!
# The longest text that is read

Each rule of the grammar stands for a set of texts (`Rule.Derives`), said without reading any.  A
rule never gives back what it has read, and yet it does not stop early: at every offset it reads
the longest of its texts that stands there, and fails where none does (`Rule.exists_reads`).  Of
all rules but that of queries no more than one text can stand there (`Rule.prefixFree_derives`).

A run by a rule therefore accepts the texts of the rule, and the reason for rejecting any other
text is exact: it names the longest beginning that would have been accepted, or says that there is
none (`rejected_longest`).
-/

namespace TagQuery

variable {α : Type} {L : Text → Prop} {input t u v : Text} {n : Nat} {rule : Rule}

/-! ### Longest texts -/

/-- Of the texts of `L` that `t` begins with, `u` is the longest. -/
structure Text.Longest (L : Text → Prop) (t u : Text) : Prop where
  mem : L u
  begins : u <+: t
  size_le : ∀ v, L v → v <+: t → v.size ≤ u.size

/-- No text of `L` is the beginning of another one. -/
def PrefixFree (L : Text → Prop) : Prop := ∀ u v, L u → L v → u <+: v → u = v

theorem PrefixFree.eq (h : PrefixFree L) (hu : L u) (hv : L v) (hut : u <+: t) (hvt : v <+: t) :
    u = v := by
  rcases List.prefix_or_prefix_of_prefix hut hvt with hle | hle
  · exact h u v hu hv hle
  · exact (h v u hv hu hle).symm

/-- Where no two texts can stand, the one that does is the longest. -/
theorem PrefixFree.longest (h : PrefixFree L) (hu : L u) (hut : u <+: t) : t.Longest L u :=
  ⟨hu, hut, fun _ hv hvt => Nat.le_of_eq (congrArg Text.size (h.eq hv hu hvt hut))⟩

/-- The outcome of reading the longest text of `L` at `n`, where `t` stands. -/
inductive Outcome.ReadsLongest (L : Text → Prop) (t : Text) (n : Nat) : Outcome α → Prop
  | matched {u : Text} (h : t.Longest L u) (a : α) (fs : Failures) :
    ReadsLongest L t n ⟨some a, n + u.size, fs⟩
  | failed (h : ∀ u, L u → ¬ u <+: t) (m : Nat) (fs : Failures) : ReadsLongest L t n ⟨none, m, fs⟩

/-! ### The texts of a rule -/

namespace Rule

/-- The texts that a rule stands for. -/
def Derives : Rule → Text → Prop
  | query, t => ∃ w : QuerySpelling, t = w.text
  | identifier, t => ∃ x : OperandSpelling, t = x.text
  | negation, t => t = ['-']
  | binaryOp, t => ∃ op : BinaryOp, t = op.symbol.toList
  | tag, t => ∃ tag : Tag, tag.SpelledBy t
  | contemporaryMeaning, t =>
    ∃ tag : Tag, tag.category = .contemporaryMeaning ∧ tag.SpelledBy t
  | syntacticFunction, t => ∃ tag : Tag, tag.category = .syntacticFunction ∧ tag.SpelledBy t

/-- What is missing in a text that begins with no text of the rule, and how far into it. -/
def missing (t : Text) : Rule → Furthest
  | query | identifier =>
    if t.head? = some '-' then ⟨1, Expected.tags⟩ else ⟨0, .sign :: Expected.tags⟩
  | negation => ⟨0, [.sign]⟩
  | binaryOp => ⟨0, Expected.operators⟩
  | tag => ⟨0, Expected.tags⟩
  | contemporaryMeaning => ⟨0, Category.contemporaryMeaning.tags.map .tag⟩
  | syntacticFunction => ⟨0, Category.syntacticFunction.tags.map .tag⟩

end Rule

theorem OperandGap.failures_eq (g : OperandGap) (n : Nat) : g.failures n =
    (Rule.identifier.missing g.text).expected.map
      fun e => (n + (Rule.identifier.missing g.text).offset, e) := by
  cases g with
  | unsigned rest noSign noPhrase =>
    rw [Rule.missing, text, if_neg noSign]
    rfl
  | signed rest noPhrase => rfl

namespace Rule

/-- **Only a query can be the beginning of a longer one.** -/
theorem prefixFree_derives (hrule : rule ≠ .query) : PrefixFree rule.Derives := by
  -- no phrase is the beginning of another one, in whatever case they are written
  have htag : ∀ {tag tag' : Tag} {u v : Text}, tag.SpelledBy u → tag'.SpelledBy v → u <+: v →
      u = v := by
    rintro tag tag' u _ hu hv ⟨r, rfl⟩
    exact (hu.append_inj hv (List.append_nil _).symm).2.1
  cases rule with
  | query => exact absurd rfl hrule
  | identifier =>
    rintro _ _ ⟨x, rfl⟩ ⟨y, rfl⟩ ⟨r, hr⟩
    rw [(OperandSpelling.text_append_inj (hr.trans (List.append_nil _).symm)).1]
  | negation =>
    rintro _ _ rfl rfl -
    rfl
  | binaryOp =>
    rintro _ _ ⟨op, rfl⟩ ⟨op', rfl⟩ ⟨r, hr⟩
    rw [(BinaryOp.symbol_append_inj (hr.trans (List.append_nil _).symm)).1]
  | tag =>
    rintro u v ⟨tag, hu⟩ ⟨tag', hv⟩ huv
    exact htag hu hv huv
  | contemporaryMeaning | syntacticFunction =>
    rintro u v ⟨tag, -, hu⟩ ⟨tag', -, hv⟩ huv
    exact htag hu hv huv

theorem Derives.ne_nil (h : rule.Derives u) : u ≠ [] := by
  cases rule with
  | query =>
    obtain ⟨w, rfl⟩ := h
    exact w.text_ne_nil
  | identifier =>
    obtain ⟨x, rfl⟩ := h
    exact x.text_ne_nil
  | negation =>
    obtain rfl : u = ['-'] := h
    exact List.cons_ne_nil _ _
  | binaryOp =>
    obtain ⟨op, rfl⟩ := h
    cases op <;> exact List.cons_ne_nil _ _
  | tag =>
    obtain ⟨tag, hw⟩ := h
    exact hw.ne_nil
  | contemporaryMeaning | syntacticFunction =>
    obtain ⟨tag, -, hw⟩ := h
    exact hw.ne_nil

/-- A rule matches with the text of it that stands at `n`, if no other one can stand there, and all
failures on the way lie before the end of it. -/
theorem yields_of_derives (hrule : rule ≠ .query) (hu : rule.Derives u)
    (h : input.rest n = u ++ v) :
    ∃ a fs, rule.action.Yields input n ⟨some a, n + u.size, fs⟩ ∧ ∀ f ∈ fs, f.1 < n + u.size := by
  have hpos : 0 < u.size := Text.size_pos hu.ne_nil
  -- the alternatives before the one that matches all fail at `n`
  have hat {ι : Type} {is : List ι} {e : ι → Expected} :
      ∀ f ∈ is.map fun i => (n, e i), f.1 < n + u.size := by
    intro f hf
    obtain ⟨i, -, rfl⟩ := List.mem_map.1 hf
    exact Nat.lt_add_of_pos_right hpos
  cases rule with
  | query => exact absurd rfl hrule
  | identifier =>
    obtain ⟨x, rfl⟩ := hu
    exact ⟨_, _, (Grammar.identifier_yields x h).map _,
      fun f hf => OperandSpelling.lt_of_mem_failures hf⟩
  | negation =>
    obtain rfl : u = ['-'] := hu
    exact ⟨_, _, (Grammar.negation_yields h).map _, fun f hf => nomatch hf⟩
  | binaryOp =>
    obtain ⟨op, rfl⟩ := hu
    have key := (Grammar.binaryOp_yields h).map Node.binaryOp
    rw [← op.size_symbol] at key
    exact ⟨_, _, key, hat⟩
  | tag =>
    obtain ⟨tag, hw⟩ := hu
    exact ⟨_, _, (Grammar.tag_yields hw h).map _, hat⟩
  | contemporaryMeaning | syntacticFunction =>
    obtain ⟨tag, hc, hw⟩ := hu
    have key := (Grammar.category_yields hw h).map Node.tag
    rw [hc] at key
    exact ⟨_, _, key, hat⟩

/-- A rule fails where none of its texts stands, and all failures on the way are at the place where
something is missing. -/
theorem yields_failed (h : ∀ u, rule.Derives u → ¬ u <+: input.rest n) :
    rule.action.Yields input n ⟨none, n, (rule.missing (input.rest n)).expected.map
      fun e => (n + (rule.missing (input.rest n)).offset, e)⟩ := by
  cases rule with
  | query =>
    rcases ClauseGap.exists_query_append (input.rest n) with ⟨g, hg⟩ | ⟨w, g, hw⟩
    · have key := (Grammar.query_yields_gap g hg).map Node.query
      rw [g.failures_eq, ← hg] at key
      exact key
    · exact absurd ⟨g.text, hw.symm⟩ (h _ ⟨w, rfl⟩)
  | identifier =>
    rcases OperandGap.exists_or (input.rest n) with ⟨x, v, hx⟩ | ⟨g, hg⟩
    · exact absurd ⟨v, hx.symm⟩ (h _ ⟨x, rfl⟩)
    · have key := (Grammar.identifier_yields_gap g hg).map Node.identifier
      rw [g.failures_eq, ← hg] at key
      exact key
  | negation =>
    have hsign : (input.rest n).head? ≠ some '-' := fun hd => by
      obtain ⟨v, hv⟩ := List.head?_eq_some_iff.1 hd
      exact h _ rfl ⟨v, hv.symm⟩
    exact (Grammar.negation_yields_failed hsign).map _
  | binaryOp =>
    have hop : (input.rest n).NoOperator := fun op v hv => h _ ⟨op, rfl⟩ ⟨v, hv.symm⟩
    exact (Grammar.binaryOp_yields_failed hop).map _
  | tag =>
    have htag : (input.rest n).NoPhrase := fun tag w v hw hv => h w ⟨tag, hw⟩ ⟨v, hv.symm⟩
    exact (Grammar.tag_yields_failed htag).map _
  | contemporaryMeaning | syntacticFunction =>
    exact (Grammar.category_yields_failed fun tag hc w v hw hv =>
      h w ⟨tag, hc, hw⟩ ⟨v, hv.symm⟩).map _

theorem longest_query {w : QuerySpelling} {g : ClauseGap} (h : t = w.text ++ g.text) :
    t.Longest Rule.query.Derives w.text := by
  refine ⟨⟨w, rfl⟩, ⟨g.text, h.symm⟩, ?_⟩
  rintro _ ⟨w', rfl⟩ ⟨v, hv⟩
  -- a shorter query is what is read of this one before some of its clauses
  obtain ⟨zs, rfl, -⟩ := ClauseGap.query_append_inj (h.symm.trans hv.symm)
  simp only [QuerySpelling.text, List.flatMap_append, Text.size_append]
  omega

/-- **A rule reads the longest of its texts**, and fails where none of them stands. -/
theorem exists_reads (rule : Rule) (input : Text) (n : Nat) :
    ∃ o, rule.action.Yields input n o ∧ o.ReadsLongest rule.Derives (input.rest n) n := by
  by_cases hex : ∃ u, rule.Derives u ∧ u <+: input.rest n
  · by_cases hrule : rule = .query
    · subst hrule
      rcases ClauseGap.exists_query_append (input.rest n) with ⟨g, hg⟩ | ⟨w, g, hw⟩
      · obtain ⟨_, ⟨w, rfl⟩, v, hv⟩ := hex
        rw [hg, QuerySpelling.text, List.append_assoc] at hv
        exact absurd hv.symm (g.text_ne w.head _)
      · exact ⟨_, (Grammar.query_yields w g hw).map _, .matched (longest_query hw) _ _⟩
    · obtain ⟨u, hu, v, hv⟩ := hex
      obtain ⟨a, fs, hy, -⟩ := yields_of_derives hrule hu hv.symm
      exact ⟨_, hy, .matched ((prefixFree_derives hrule).longest hu ⟨v, hv⟩) a fs⟩
  · have hno : ∀ u, rule.Derives u → ¬ u <+: input.rest n := fun u hu hut => hex ⟨u, hu, hut⟩
    exact ⟨_, yields_failed hno, .failed hno _ _⟩

end Rule

/-! ### Runs by a rule -/

theorem parseRuleWith_eq {o : Outcome Node} {s : String} (memoize : Bool)
    (h : rule.action.Yields s.toList 0 o) : parseRuleWith memoize rule s = o.verdict s.toList := by
  obtain ⟨q, hq, -⟩ := Parser.drive_eq (p := Parser.new s memoize) h
  exact congrArg Prod.fst hq

theorem parseRuleWith_query (memoize : Bool) (s : String) :
    parseRuleWith memoize .query s = (parseWith memoize s).map Node.query := by
  obtain ⟨o, ho, -⟩ := Grammar.query_settles s.toList 0
  rw [parseWith_eq memoize ho, ← Outcome.verdict_map]
  exact parseRuleWith_eq memoize (ho.map Node.query)

/-- A run by a rule accepts the texts of the rule.  Of another text it says how long the longest
text of the rule is that stands at its start, or that none does. -/
theorem parseRuleWith_cases (memoize : Bool) (rule : Rule) (s : String) :
    (rule.Derives s.toList ∧ ∃ a, parseRuleWith memoize rule s = .accepted a) ∨
      (∃ u e, Text.Longest rule.Derives s.toList u ∧ u.size < Text.size s.toList ∧
        parseRuleWith memoize rule s = .rejected e ∧ e.reason = .trailingInput u.size) ∨
        ∃ e, (∀ u, rule.Derives u → ¬ u <+: s.toList) ∧
          parseRuleWith memoize rule s = .rejected e ∧ e.reason = .noMatch := by
  obtain ⟨o, hy, ho⟩ := rule.exists_reads s.toList 0
  have hv := parseRuleWith_eq memoize hy
  rw [Text.rest_zero] at ho
  cases ho with
  | failed h m fs => exact Or.inr (Or.inr ⟨_, h, hv, rfl⟩)
  | @matched u h a fs =>
    obtain ⟨v, hv'⟩ := h.begins
    rw [Nat.zero_add] at hv
    -- the text is accepted if nothing of it is left, which the sizes tell
    by_cases hsize : u.size = Text.size s.toList
    · have hnil : v = [] := by
        rw [← hv', Text.size_append] at hsize
        exact Text.size_eq_zero_iff.1 (by omega)
      rw [hnil, List.append_nil] at hv'
      refine Or.inl ⟨hv' ▸ h.mem, a, ?_⟩
      rw [hv]
      simp [Outcome.verdict, hsize]
    · have hlt : u.size < Text.size s.toList := by
        rw [← hv', Text.size_append] at hsize ⊢
        omega
      have hrej : parseRuleWith memoize rule s = .rejected
          (Outcome.error s.toList ⟨some a, u.size, fs⟩ (.trailingInput u.size)) := by
        rw [hv]
        simp only [Outcome.verdict, hsize, ↓reduceIte]
      exact Or.inr (Or.inl ⟨u, _, h, hlt, hrej, rfl⟩)

theorem parseRuleWith_accepted_iff (memoize : Bool) (rule : Rule) (s : String) :
    (∃ a, parseRuleWith memoize rule s = .accepted a) ↔ rule.Derives s.toList := by
  rcases parseRuleWith_cases memoize rule s with ⟨h, ha⟩ | ⟨u, e, h, hlt, he, -⟩ | ⟨e, h, he, -⟩
  · exact iff_of_true ha h
  · refine iff_of_false ?_ fun hs => ?_
    · rintro ⟨a, ha⟩
      cases he.symm.trans ha
    · have := h.size_le _ hs List.prefix_rfl
      omega
  · refine iff_of_false ?_ fun hs => h _ hs List.prefix_rfl
    rintro ⟨a, ha⟩
    cases he.symm.trans ha

/-! ### The reason for rejecting a text -/

/-- The first `n` bytes of `s` are a text that is accepted. -/
def AcceptsUpTo (accepts : String → Prop) (s : String) (n : Nat) : Prop :=
  ∃ p : String, Text.take? n s.toList = some p.toList ∧ accepts p

/-- The reason for rejecting `s` says which of its beginnings are accepted: none at all, or some,
the longest of which ends where the trailing input begins. -/
structure RejectReason.Fits (accepts : String → Prop) (s : String) (reason : RejectReason) :
    Prop where
  noMatch_iff : reason = .noMatch ↔ ∀ n, ¬ AcceptsUpTo accepts s n
  trailingInput_iff : (∃ c, reason = .trailingInput c) ↔ ∃ n, AcceptsUpTo accepts s n
  longest : ∀ c, reason = .trailingInput c →
    c < Text.size s.toList ∧ AcceptsUpTo accepts s c ∧ ∀ n, c < n → ¬ AcceptsUpTo accepts s n

section

variable {accepts : String → Prop} {s : String}

theorem acceptsUpTo_iff (hL : ∀ p, accepts p ↔ L p.toList) :
    AcceptsUpTo accepts s n ↔ ∃ u, L u ∧ u <+: s.toList ∧ u.size = n := by
  constructor
  · rintro ⟨p, hp, ha⟩
    obtain ⟨v, hv, hn⟩ := Text.take?_eq_some_iff.1 hp
    exact ⟨p.toList, (hL p).1 ha, ⟨v, hv.symm⟩, hn⟩
  · rintro ⟨u, hu, ⟨v, hv⟩, hn⟩
    refine ⟨.ofList u, Text.take?_eq_some_iff.2 ⟨v, ?_, ?_⟩, (hL _).2 ?_⟩ <;>
      rw [String.toList_ofList]
    · exact hv.symm
    · exact hn
    · exact hu

theorem RejectReason.fits_noMatch (hL : ∀ p, accepts p ↔ L p.toList)
    (h : ∀ u, L u → ¬ u <+: s.toList) : RejectReason.noMatch.Fits accepts s := by
  have hno : ∀ n, ¬ AcceptsUpTo accepts s n := fun n hn => by
    obtain ⟨u, hu, hus, -⟩ := (acceptsUpTo_iff hL).1 hn
    exact h u hu hus
  exact ⟨iff_of_true rfl hno, iff_of_false (by simp) fun ⟨n, hn⟩ => hno n hn, by simp⟩

theorem RejectReason.fits_trailingInput (hL : ∀ p, accepts p ↔ L p.toList)
    (h : Text.Longest L s.toList u) (hlt : u.size < Text.size s.toList) :
    (RejectReason.trailingInput u.size).Fits accepts s := by
  have hu : AcceptsUpTo accepts s u.size := (acceptsUpTo_iff hL).2 ⟨u, h.mem, h.begins, rfl⟩
  refine ⟨iff_of_false (by simp) fun hno => hno _ hu, iff_of_true ⟨_, rfl⟩ ⟨_, hu⟩, ?_⟩
  rintro _ ⟨⟩
  refine ⟨hlt, hu, fun n hn hacc => ?_⟩
  obtain ⟨v, hv, hvs, rfl⟩ := (acceptsUpTo_iff hL).1 hacc
  have := h.size_le v hv hvs
  omega

theorem fits_of_rejected {e : ParseError} (hL : ∀ p, accepts p ↔ rule.Derives p.toList)
    (h : parseRule rule s = .rejected e) : e.reason.Fits accepts s := by
  rcases parseRuleWith_cases true rule s with ⟨-, a, ha⟩ | ⟨u, e', hu, hlt, he', hr⟩ |
    ⟨e', hno, he', hr⟩
  · cases ha.symm.trans h
  · obtain rfl := Verdict.rejected.inj (he'.symm.trans h)
    rw [hr]
    exact RejectReason.fits_trailingInput hL hu hlt
  · obtain rfl := Verdict.rejected.inj (he'.symm.trans h)
    rw [hr]
    exact RejectReason.fits_noMatch hL hno

end

/-- The texts that a run by the rule accepts. -/
def Rule.Accepts (rule : Rule) (s : String) : Prop := ∃ a, parseRule rule s = .accepted a

/-- **The reason for rejecting a text is maximal munch.**  Whatever rule a text is read by, it is
rejected for what follows the longest beginning of it that is accepted, or else no beginning of it
is accepted; and unless the rule is that of queries, no other beginning is accepted.  Reading a
query is no exception. -/
theorem rejected_longest (s : String) (e : ParseError) :
    (∀ rule : Rule, parseRule rule s = .rejected e →
      e.reason.Fits rule.Accepts s ∧
        (rule ≠ .query → ∀ c, e.reason = .trailingInput c →
          ∀ n, AcceptsUpTo rule.Accepts s n → n = c)) ∧
      (parse s = .rejected e → e.reason.Fits (fun p => ∃ q, parse p = .accepted q) s) := by
  have hrule : ∀ (rule : Rule) (p : String), rule.Accepts p ↔ rule.Derives p.toList :=
    fun rule p => parseRuleWith_accepted_iff true rule p
  have hquery : ∀ p, (∃ q, parse p = .accepted q) ↔ Rule.query.Derives p.toList := by
    intro p
    rw [parse, accepted_iff]
    exact exists_congr fun w => eq_comm
  constructor
  · intro rule h
    have hfits := fits_of_rejected (hrule rule) h
    refine ⟨hfits, fun hne c hc n hn => ?_⟩
    obtain ⟨u, hu, hus, rfl⟩ := (acceptsUpTo_iff (hrule rule)).1 (hfits.longest c hc).2.1
    obtain ⟨v, hv, hvs, rfl⟩ := (acceptsUpTo_iff (hrule rule)).1 hn
    rw [(Rule.prefixFree_derives hne).eq hv hu hvs hus]
  · intro h
    have h' : parseRule .query s = .rejected e := by
      rw [parseRule, parseRuleWith_query, ← parse, h]
      rfl
    exact fits_of_rejected hquery h'

/-- Of `-Subjects` the first eight bytes are an identifier, and of `booster Subject` the first seven
are a query. -/
theorem rejected_longest_plural :
    (∃ e, parseRule .identifier "-Subjects" = .rejected e ∧
      e.reason.Fits Rule.identifier.Accepts "-Subjects" ∧
      AcceptsUpTo Rule.identifier.Accepts "-Subjects" 8 ∧
      ∀ n, AcceptsUpTo Rule.identifier.Accepts "-Subjects" n → n = 8) ∧
    ∃ e, parse "booster Subject" = .rejected e ∧
      e.reason.Fits (fun p => ∃ q, parse p = .accepted q) "booster Subject" := by
  have h₁ : parseRule .identifier "-Subjects" = .rejected
      (.ofFailure "-Subjects".toList 8 [.endOfInput] (.trailingInput 8)) := by
    decide +kernel
  have h₂ : parse "booster Subject" = .rejected (.ofFailure "booster Subject".toList 8
      (Expected.space :: Expected.operators) (.trailingInput 7)) := by
    decide +kernel
  have h₃ := (rejected_longest "-Subjects" _).1 .identifier h₁
  exact ⟨⟨_, h₁, h₃.1, (h₃.1.longest 8 rfl).2.1, h₃.2 (by decide) 8 rfl⟩,
    _, h₂, (rejected_longest "booster Subject" _).2 h₂⟩

end TagQuery
