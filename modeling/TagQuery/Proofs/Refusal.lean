import TagQuery.Proofs.Longest

/-!
# What a rule says is missing

A run by one rule, that of queries apart, has two kinds of errors.

* The rule read something and more follows.  All failures on the way lie before the end of what was
  read (`Rule.yields_of_derives`), so what is missing there is the end of the input
  (`Outcome.furthest_of_behind`).
* The rule read nothing.  All failures lie at one place, and nothing was recorded before them, so
  they are all reported (`Furthest.recordAll_empty`): those are the tokens that the texts of the
  rule begin with (`Rule.missing`), or may go on with after a `-`.
-/

namespace TagQuery

variable {α : Type} {input : Text} {n : Nat} {rule : Rule}

theorem Furthest.recordAll_empty {es : List Expected} (hne : es ≠ []) (hnd : es.Nodup) (n : Nat) :
    Furthest.empty.recordAll (es.map fun e => (n, e)) = ⟨n, es⟩ :=
  recordAll_at (Nat.zero_le n) (fun _ => rfl) hne hnd

theorem Outcome.furthest_of_behind {a : α} {stop : Nat} {fs : Failures} (hpos : 0 < stop)
    (hfs : ∀ f ∈ fs, f.1 < stop) (hstop : stop ≠ input.size) :
    (⟨some a, stop, fs⟩ : Outcome α).furthest input = ⟨stop, [.endOfInput]⟩ := by
  have hlt : (Furthest.empty.recordAll fs).offset < stop :=
    Furthest.offset_recordAll_lt hpos hfs
  rw [furthest, if_pos ⟨rfl, hstop, Or.inr hlt⟩]
  exact Furthest.record_of_lt _ hlt

namespace Rule

theorem expected_missing_ne_nil (rule : Rule) (t : Text) : (rule.missing t).expected ≠ [] := by
  have htags : Expected.tags ≠ [] := by decide
  cases rule with
  | query | identifier =>
    by_cases h : t.head? = some '-'
    · simpa only [missing, h, ↓reduceIte] using htags
    · simp [missing, h]
  | negation | binaryOp => exact List.cons_ne_nil _ _
  | tag => exact htags
  | contemporaryMeaning | syntacticFunction =>
    simp only [missing]
    decide

theorem nodup_expected_missing (rule : Rule) (t : Text) : (rule.missing t).expected.Nodup := by
  cases rule with
  | query | identifier =>
    have hsign : (Expected.sign :: Expected.tags).Nodup := by decide +kernel
    by_cases h : t.head? = some '-'
    · simpa only [missing, h, ↓reduceIte] using (List.nodup_cons.1 hsign).2
    · simpa only [missing, h, ↓reduceIte] using hsign
  | negation | binaryOp | tag | contemporaryMeaning | syntacticFunction =>
    simp only [missing]
    decide +kernel

/-- What a run by a rule comes to: it accepts, or misses the end of the input behind what it read,
or misses what the texts of the rule begin with. -/
theorem parseRuleWith_explained (memoize : Bool) (hrule : rule ≠ .query) (s : String) :
    (∃ a, parseRuleWith memoize rule s = .accepted a) ∨
      (∃ c, parseRuleWith memoize rule s =
        .rejected (.ofFailure s.toList c [.endOfInput] (.trailingInput c))) ∨
        parseRuleWith memoize rule s = .rejected (.ofFailure s.toList
          (rule.missing s.toList).offset (rule.missing s.toList).expected .noMatch) := by
  by_cases hex : ∃ u, rule.Derives u ∧ u <+: s.toList
  · -- the text that stands there is the only one, so it is what the rule reads
    obtain ⟨u, hu, v, hv⟩ := hex
    have hstands : Text.rest s.toList 0 = u ++ v := (Text.rest_zero _).trans hv.symm
    obtain ⟨a, fs, hy, hfs⟩ := yields_of_derives hrule hu hstands
    have hrun := parseRuleWith_eq memoize hy
    rw [Nat.zero_add] at hrun hfs
    by_cases hsize : u.size = Text.size s.toList
    · refine Or.inl ⟨a, ?_⟩
      rw [hrun]
      simp [Outcome.verdict, hsize]
    · have hpos : 0 < u.size := Text.size_pos hu.ne_nil
      refine Or.inr (Or.inl ⟨u.size, ?_⟩)
      rw [hrun]
      simp only [Outcome.verdict, hsize, ↓reduceIte, Outcome.error,
        Outcome.furthest_of_behind hpos hfs hsize]
  · have hnone : ∀ u, rule.Derives u → ¬ u <+: Text.rest s.toList 0 := by
      rw [Text.rest_zero]
      exact fun u hu hut => hex ⟨u, hu, hut⟩
    refine Or.inr (Or.inr ?_)
    rw [parseRuleWith_eq memoize (yields_failed hnone)]
    simp [Outcome.verdict, Outcome.error, Outcome.furthest, Text.rest_zero,
      Furthest.recordAll_empty (rule.expected_missing_ne_nil _) (rule.nodup_expected_missing _)]

end Rule

/-- **What a rule says about a text is exact.**  If a rule other than that of queries rejects a text
for what follows a match, nothing is missing but the end of the input, right behind the match,
whatever alternatives failed on the way.  If the rule does not match, what is missing is what its
texts begin with, in the order of the vocabulary: the `-`, an operator, any phrase or those of one
category, at the start of the text; an identifier may begin with a `-` or a phrase, and behind a
`-` only a phrase is missing. -/
theorem rule_rejected_explained (rule : Rule) (s : String) (e : ParseError)
    (hrule : rule ≠ .query) (h : parseRule rule s = .rejected e) :
    (∀ c, e.reason = .trailingInput c → e.offset = c ∧ e.expected = [.endOfInput]) ∧
      (e.reason = .noMatch → e.offset = (rule.missing s.toList).offset ∧
        e.expected = (rule.missing s.toList).expected) := by
  rcases Rule.parseRuleWith_explained true hrule s with ⟨a, ha⟩ | ⟨c, hc⟩ | hmissing
  · cases ha.symm.trans h
  · obtain rfl := Verdict.rejected.inj (hc.symm.trans h)
    refine ⟨?_, nofun⟩
    rintro _ ⟨⟩
    exact ⟨rfl, rfl⟩
  · obtain rfl := Verdict.rejected.inj (hmissing.symm.trans h)
    exact ⟨nofun, fun _ => ⟨rfl, rfl⟩⟩

/-- Behind the `-` of `-x` the end of the input is missing if a sign is asked for, and a phrase if
an identifier is. -/
theorem rule_rejected_explained_sign :
    (∃ e, parseRule .negation "-x" = .rejected e ∧ e.reason = .trailingInput 1 ∧ e.offset = 1 ∧
      e.expected = [.endOfInput]) ∧
    ∃ e, parseRule .identifier "-x" = .rejected e ∧ e.reason = .noMatch ∧ e.offset = 1 ∧
      e.expected = Expected.tags := by
  have h₁ : parseRule .negation "-x" = .rejected
      (.ofFailure "-x".toList 1 [.endOfInput] (.trailingInput 1)) := by
    decide +kernel
  have h₂ : parseRule .identifier "-x" = .rejected
      (.ofFailure "-x".toList 1 Expected.tags .noMatch) := by
    decide +kernel
  exact ⟨⟨_, h₁, rfl, (rule_rejected_explained _ _ _ (by decide) h₁).1 1 rfl⟩,
    _, h₂, rfl, (rule_rejected_explained _ _ _ (by decide) h₂).2 rfl⟩

end TagQuery
