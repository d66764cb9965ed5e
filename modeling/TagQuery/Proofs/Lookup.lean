import TagQuery.Proofs.Longest

/-!
# Looking up a tag

There are two ways to find the tag that a text spells: searching the vocabulary for the text
(`Tag.ofPhrase?`), and reading the text by a rule, which tries one phrase after the other.  They
agree, since phrases are prefix-free: no more than one of them stands at an offset
(`Tag.StandsAt.unique`), so there is never anything to choose.

An action finds tags if it reads the one among some tags that stands where it begins, and fails if
none of them does (`Action.Finds`).  A choice of tags finds them, and a choice of such choices finds
the tags of all of them (`Grammar.choice_groups_finds`).  What an action finds is determined by the
tags alone (`Outcome.Lookup.eq`): neither the order of phrases nor their division into categories
can be seen.
-/

namespace TagQuery

variable {α : Type} {input t : Text} {n : Nat} {tag tag' : Tag}

/-! ### Phrases at an offset -/

namespace Tag

/-- The bytes of the text from `n` on spell the tag: there are as many as its phrase has, and they
are the phrase up to the case of ASCII letters. -/
def StandsAt (t : Text) (n : Nat) (tag : Tag) : Prop :=
  (t.slice? n (n + Text.size tag.phrase.toList)).map Text.foldCase =
    some (Text.foldCase tag.phrase.toList)

instance (t : Text) (n : Nat) (tag : Tag) : Decidable (tag.StandsAt t n) :=
  inferInstanceAs (Decidable (_ = _))

theorem size_phrase_pos (tag : Tag) : 0 < Text.size tag.phrase.toList :=
  Text.size_pos (show tag.SpelledBy tag.phrase.toList from rfl).ne_nil

theorem standsAt_iff :
    tag.StandsAt t n ↔ ∃ w v, tag.SpelledBy w ∧ t.rest n = w ++ v := by
  rw [StandsAt, Option.map_eq_some_iff]
  constructor
  · rintro ⟨w, hw, hfold⟩
    obtain ⟨v, hv, -⟩ := (Text.slice?_eq_some_iff_rest tag.size_phrase_pos).1 hw
    exact ⟨w, v, hfold, hv⟩
  · rintro ⟨w, v, hw, hv⟩
    exact ⟨w, (Text.slice?_eq_some_iff_rest tag.size_phrase_pos).2 ⟨v, hv, hw.size_eq⟩, hw⟩

/-- **No more than one phrase stands at an offset.** -/
theorem StandsAt.unique (h : tag.StandsAt t n) (h' : tag'.StandsAt t n) : tag = tag' := by
  obtain ⟨w, v, hw, hv⟩ := standsAt_iff.1 h
  obtain ⟨w', v', hw', hv'⟩ := standsAt_iff.1 h'
  exact (hw.append_inj hw' (hv.symm.trans hv')).1

theorem spelledBy_iff_standsAt :
    tag.SpelledBy t ↔ tag.StandsAt t 0 ∧ Text.size tag.phrase.toList = t.size := by
  rw [standsAt_iff, Text.rest_zero]
  constructor
  · intro h
    exact ⟨⟨t, [], h, (List.append_nil t).symm⟩, h.size_eq.symm⟩
  · rintro ⟨⟨w, v, hw, rfl⟩, hsize⟩
    rw [Text.size_append, hw.size_eq] at hsize
    obtain rfl : v = [] := Text.size_eq_zero_iff.1 (by omega)
    rwa [List.append_nil]

/-- Of the phrases of the vocabulary, the first that a text spells is the only one. -/
theorem ofPhrase?_eq_some_iff {s : String} : ofPhrase? s = some tag ↔ tag.SpelledBy s.toList := by
  have hfound : ∀ {tag : Tag}, ofPhrase? s = some tag → tag.SpelledBy s.toList := by
    intro tag h
    rw [ofPhrase?] at h
    simpa using List.find?_some h
  refine ⟨hfound, fun h => ?_⟩
  have hsome : (ofPhrase? s).isSome := List.find?_isSome.2 ⟨tag, mem_all tag, decide_eq_true h⟩
  obtain ⟨tag', htag'⟩ := Option.isSome_iff_exists.1 hsome
  have hstands := (spelledBy_iff_standsAt.1 (hfound htag')).1
  rw [htag', hstands.unique (spelledBy_iff_standsAt.1 h).1]

end Tag

/-! ### Actions that find tags -/

/-- The outcome of looking for one of the tags `A` at `n`. -/
inductive Outcome.Lookup (A : Tag → Prop) (input : Text) (n : Nat) : Outcome TagMatch → Prop
  | found {tag : Tag} (mem : A tag) (stands : tag.StandsAt input n) (fs : Failures) :
    Lookup A input n ⟨some ⟨tag, .ofLength n (Text.size tag.phrase.toList)⟩,
      n + Text.size tag.phrase.toList, fs⟩
  | missing (none_stands : ∀ tag, A tag → ¬ tag.StandsAt input n) (fs : Failures) :
    Lookup A input n ⟨none, n, fs⟩

/-- Among the tags that stand there is at most one, so the outcome is determined. -/
theorem Outcome.Lookup.eq {A : Tag → Prop} {o o' : Outcome TagMatch} (h : o.Lookup A input n)
    (h' : o'.Lookup A input n) : o.result = o'.result ∧ o.stop = o'.stop := by
  cases h with
  | found mem stands =>
    cases h' with
    | found mem' stands' =>
      obtain rfl := stands.unique stands'
      exact ⟨rfl, rfl⟩
    | missing none_stands => exact absurd stands (none_stands _ mem)
  | missing none_stands =>
    cases h' with
    | found mem stands => exact absurd stands (none_stands _ mem)
    | missing => exact ⟨rfl, rfl⟩

/-- The action reads the one of the tags `A` that stands where it begins, and fails if there is
none. -/
def Action.Finds (x : Action TagMatch) (A : Tag → Prop) : Prop :=
  ∀ input n, ∃ o, x.Yields input n o ∧ o.Lookup A input n

namespace Grammar

open TagQuery.Action

theorem choice_finds (tags : List Tag) : (choice (tags.map tagOf)).Finds (· ∈ tags) := by
  intro input n
  by_cases h : ∃ tag ∈ tags, tag.StandsAt input n
  · obtain ⟨tag, htag, hstands⟩ := h
    obtain ⟨w, v, hw, hv⟩ := Tag.standsAt_iff.1 hstands
    have hread := choice_tagOf_yields htag hw hv
    rw [hw.size_eq] at hread
    exact ⟨_, hread, .found htag hstands _⟩
  · refine ⟨_, choice_tagOf_yields_failed fun tag htag w v hw hv => ?_,
      .missing (fun tag htag hstands => h ⟨tag, htag, hstands⟩) _⟩
    exact h ⟨tag, htag, Tag.standsAt_iff.2 ⟨w, v, hw, hv⟩⟩

theorem finds_memoized {x : Action TagMatch} {A : Tag → Prop} {rule : Rule} (h : x.Finds A)
    (hrule : rule.action = Fragment.toNode <$> memoized rule x) : (memoized rule x).Finds A := by
  intro input n
  obtain ⟨o, ho, hlookup⟩ := h input n
  exact ⟨o, ho.memoized hrule, hlookup⟩

theorem finds_choice {ι : Type} {xs : List ι} {x : ι → Action TagMatch} {A : ι → Tag → Prop}
    (h : ∀ i ∈ xs, (x i).Finds (A i)) : (choice (xs.map x)).Finds fun tag => ∃ i ∈ xs, A i tag := by
  induction xs with
  | nil => exact fun input n => ⟨_, Yields.fail, .missing (fun _ ⟨i, hi, _⟩ => nomatch hi) _⟩
  | cons i xs ih =>
    intro input n
    obtain ⟨o, ho, hlookup⟩ := h i List.mem_cons_self input n
    cases hlookup with
    | found mem stands fs =>
      exact ⟨_, Yields.choice_matched ho, .found ⟨i, List.mem_cons_self, mem⟩ stands fs⟩
    | missing none_stands fs =>
      -- what the others find is found, and if they find nothing, nothing of all stands here
      obtain ⟨o', ho', hlookup'⟩ := ih (fun j hj => h j (List.mem_cons_of_mem i hj)) input n
      refine ⟨_, Yields.choice_failed ho ho', ?_⟩
      cases hlookup' with
      | found mem stands gs =>
        obtain ⟨j, hj, hA⟩ := mem
        exact .found ⟨j, List.mem_cons_of_mem i hj, hA⟩ stands _
      | missing none_stands' gs =>
        refine .missing (fun tag => ?_) _
        rintro ⟨j, hj, hA⟩
        rcases List.mem_cons.1 hj with rfl | hj
        · exact none_stands tag hA
        · exact none_stands' tag ⟨j, hj, hA⟩

/-- **The tags of a choice of choices are those of all groups**, in whatever order they are
tried. -/
theorem choice_groups_finds (groups : List (List Tag)) :
    (choice (groups.map fun tags => choice (tags.map tagOf))).Finds
      fun tag => ∃ tags ∈ groups, tag ∈ tags :=
  finds_choice fun tags _ => choice_finds tags

theorem category_finds (c : Category) : (category c).Finds (·.category = c) := by
  have h : (choice (c.tags.map tagOf)).Finds (·.category = c) := by
    simpa only [Category.mem_tags] using choice_finds c.tags
  exact finds_memoized h (action_rule c)

theorem tag_finds : Grammar.tag.Finds fun _ => True := by
  have h : (choice (Category.all.map category)).Finds fun _ => True := by
    have hall (tag : Tag) : (∃ c ∈ Category.all, tag.category = c) ↔ True := by
      simp only [exists_eq_right', iff_true]
      cases tag.category <;> decide
    have hcategory : ∀ c ∈ Category.all, (category c).Finds (·.category = c) :=
      fun c _ => category_finds c
    simpa only [hall] using finds_choice hcategory
  exact finds_memoized h rfl

end Grammar

/-! ### The two ways to look up a tag -/

theorem accepted_tag_iff {x : Action TagMatch} {A : Tag → Prop} {rule : Rule} (h : x.Finds A)
    (hrule : rule.action = Node.tag <$> x) (memoize : Bool) (s : String) (tag : Tag) :
    (∃ span, parseRuleWith memoize rule s = .accepted (.tag ⟨tag, span⟩)) ↔
      A tag ∧ tag.SpelledBy s.toList := by
  obtain ⟨o, ho, hlookup⟩ := h s.toList 0
  rw [parseRuleWith_eq memoize (hrule ▸ ho.map Node.tag), Outcome.verdict_map,
    Tag.spelledBy_iff_standsAt]
  cases hlookup with
  | @found tag' mem stands fs =>
    -- the tag that stands at the start is accepted if it is all there is
    by_cases hsize : Text.size tag'.phrase.toList = Text.size s.toList
    · simp only [Outcome.verdict, Nat.zero_add, hsize, ↓reduceIte, Verdict.map,
        Verdict.accepted.injEq, Node.tag.injEq, TagMatch.mk.injEq, exists_and_left]
      constructor
      · rintro ⟨rfl, -⟩
        exact ⟨mem, stands, hsize⟩
      · rintro ⟨-, hstands, -⟩
        exact ⟨stands.unique hstands, _, rfl⟩
    · simp only [Outcome.verdict, Nat.zero_add, hsize, ↓reduceIte, Verdict.map, reduceCtorEq,
        exists_false, false_iff]
      rintro ⟨-, hstands, hsize'⟩
      obtain rfl := stands.unique hstands
      exact hsize hsize'
  | missing none_stands fs =>
    simp only [Outcome.verdict, Verdict.map, reduceCtorEq, exists_false, false_iff]
    rintro ⟨hA, hstands, -⟩
    exact none_stands tag hA hstands

/-- What the caller of an action sees: the value, if there is one, and where the cursor is. -/
def Reply.seen : Reply α → Option (Option α × Nat)
  | matched a s => some (some a, s.cursor)
  | failed s => some (none, s.cursor)
  | stuck _ => none

theorem Action.Yields.seen_eq {x : Action α} {o : Outcome α} {s : String}
    (h : x.Yields s.toList n o) (memoize : Bool) :
    (x ((Parser.newAt s memoize n).context 0) (Parser.newAt s memoize n).state).seen =
      some (o.result, o.stop) := by
  obtain ⟨t, ht, hcursor⟩ := Parser.exists_newAt h memoize
  rw [ht]
  obtain ⟨_ | a, stop, fs⟩ := o <;> exact congrArg (fun k => some (_, k)) hcursor

/-- **Looking up a tag by the table and by the rules is the same.**  A text is read as a tag by the
rule of tags if the table has the tag for it, and by the rule of a category if the tag is of that
category as well.  At every offset of every text stands at most one phrase; there a new parser
reads exactly that tag, with the span of its phrase, and fails if there is none.  It would do the
same if the phrases were divided into other groups or tried in another order. -/
theorem tag_lookup :
    (∀ (s : String) (tag : Tag),
      ((∃ span, parseRule .tag s = .accepted (.tag ⟨tag, span⟩)) ↔ Tag.ofPhrase? s = some tag) ∧
      ∀ c : Category, (∃ span, parseRule c.rule s = .accepted (.tag ⟨tag, span⟩)) ↔
        Tag.ofPhrase? s = some tag ∧ tag.category = c) ∧
    ∀ (s : String) (memoize : Bool) (n : Nat),
      let p := Parser.newAt s memoize n
      let seen := (Grammar.tag (p.context 0) p.state).seen
      (∀ tag tag' : Tag, tag.StandsAt s.toList n → tag'.StandsAt s.toList n → tag = tag') ∧
      (∀ tag : Tag, tag.StandsAt s.toList n →
        seen = some (some ⟨tag, .ofLength n (Text.size tag.phrase.toList)⟩,
          n + Text.size tag.phrase.toList)) ∧
      ((∀ tag : Tag, ¬ tag.StandsAt s.toList n) → seen = some (none, n)) ∧
      ∀ groups : List (List Tag), (∀ tag, ∃ tags ∈ groups, tag ∈ tags) →
        (Action.choice (groups.map fun tags => Action.choice (tags.map Grammar.tagOf))
          (p.context 0) p.state).seen = seen := by
  refine ⟨fun s tag => ⟨?_, fun c => ?_⟩, ?_⟩
  · rw [parseRule, accepted_tag_iff Grammar.tag_finds rfl, Tag.ofPhrase?_eq_some_iff, true_and]
  · rw [parseRule, accepted_tag_iff (Grammar.category_finds c) (Grammar.action_rule c),
      Tag.ofPhrase?_eq_some_iff, and_comm]
  · intro s memoize n p seen
    obtain ⟨o, ho, hlookup⟩ := Grammar.tag_finds s.toList n
    have hseen : seen = some (o.result, o.stop) := ho.seen_eq memoize
    refine ⟨fun _ _ h h' => h.unique h', fun tag htag => ?_, fun hnone => ?_, fun groups hall => ?_⟩
    · obtain ⟨hresult, hstop⟩ := hlookup.eq (.found trivial htag [])
      rw [hseen, hresult, hstop]
    · obtain ⟨hresult, hstop⟩ := hlookup.eq (.missing (fun tag _ => hnone tag) [])
      rw [hseen, hresult, hstop]
    · obtain ⟨o', ho', hlookup'⟩ := Grammar.choice_groups_finds groups s.toList n
      simp only [hall] at hlookup'
      obtain ⟨hresult, hstop⟩ := hlookup.eq hlookup'
      rw [hseen, hresult, hstop]
      exact ho'.seen_eq memoize

/-- Behind the `-` of `-SUBJECT` the subject is read, also if all phrases are tried backwards; in
`Subjé`, where no phrase stands, none is read. -/
theorem tag_lookup_upper :
    (∃ span, parseRule .tag "SUBJECT" = .accepted (.tag ⟨.subject, span⟩)) ∧
    let p := Parser.newAt "-SUBJECT" true 1
    let q := Parser.newAt "Subjé" true 4
    (Grammar.tag (p.context 0) p.state).seen = some (some ⟨.subject, .ofLength 1 7⟩, 8) ∧
      (Action.choice ([Tag.all.reverse].map fun tags => Action.choice (tags.map Grammar.tagOf))
        (p.context 0) p.state).seen = some (some ⟨.subject, .ofLength 1 7⟩, 8) ∧
      (Grammar.tag (q.context 0) q.state).seen = some (none, 4) := by
  have hstands : Tag.subject.StandsAt "-SUBJECT".toList 1 := by decide +kernel
  have hnone : ∀ tag ∈ Tag.all, ¬ Tag.StandsAt "Subjé".toList 4 tag := by decide +kernel
  obtain ⟨-, hread, -, hgroups⟩ := tag_lookup.2 "-SUBJECT" true 1
  have hseen := hread .subject hstands
  refine ⟨(tag_lookup.1 "SUBJECT" .subject).1.2 (by decide +kernel), hseen, ?_, ?_⟩
  · refine (hgroups [Tag.all.reverse] fun tag => ⟨_, List.mem_singleton_self _, ?_⟩).trans hseen
    exact List.mem_reverse.2 (Tag.mem_all tag)
  · exact (tag_lookup.2 "Subjé" true 4).2.2.1 fun tag => hnone tag (Tag.mem_all tag)

end TagQuery
