import TagQuery.Query.Spelling
import TagQuery.Proofs.Rest

/-!
# A text is spelled in one way

No phrase of the vocabulary begins another one, even if the case of letters is forgotten
(`Tag.SpelledBy.append_inj`).  Hence what stands at the start of a text can be read as an operand
in one way only (`OperandSpelling.text_append_inj`), as a clause in one way only
(`ClauseSpelling.text_append_inj`), and a whole query has one spelling (`QuerySpelling.text_inj`).

`QuerySpelling.clauses_of_append` says what may follow a query if the whole is a query again:
nothing but more clauses.
-/

namespace TagQuery

namespace Tag

variable {tag tag' : Tag} {w w' v v' : Text}

theorem phrase_prefix_inj (h : Text.foldCase tag.phrase.toList <+:
    Text.foldCase tag'.phrase.toList) : tag = tag' := by
  have key : ∀ t ∈ all, ∀ t' ∈ all,
      (Text.foldCase t.phrase.toList).isPrefixOf (Text.foldCase t'.phrase.toList) = true →
        t = t' := by decide +kernel
  exact key tag (mem_all tag) tag' (mem_all tag') (List.isPrefixOf_iff_prefix.2 h)

/-- The characters that stand between the words of a query begin no phrase. -/
theorem head?_phrase_ne (tag : Tag) {c : Char} (hc : c ∈ [' ', '-', '|', '&']) :
    (Text.foldCase tag.phrase.toList).head? ≠ some c.toLower := by
  have key : ∀ t ∈ all, [' ', '-', '|', '&'].all (fun c =>
      (Text.foldCase t.phrase.toList).head? != some c.toLower) = true := by decide +kernel
  have hall := List.all_eq_true.1 (key tag (mem_all tag)) c hc
  exact bne_iff_ne.1 hall

theorem SpelledBy.length_eq (h : tag.SpelledBy w) : w.length = tag.phrase.toList.length := by
  have := congrArg List.length h
  simpa [Text.foldCase] using this

theorem SpelledBy.size_eq (h : tag.SpelledBy w) : w.size = Text.size tag.phrase.toList := by
  rw [← Text.size_foldCase w, h, Text.size_foldCase]

theorem SpelledBy.ne_nil (h : tag.SpelledBy w) : w ≠ [] := by
  rintro rfl
  have key : ∀ t ∈ all, Text.foldCase t.phrase.toList ≠ [] := by decide +kernel
  exact key tag (mem_all tag) h.symm

theorem SpelledBy.head?_ne (h : tag.SpelledBy w) {c : Char} (hc : c ∈ [' ', '-', '|', '&'])
    (v : Text) : (w ++ v).head? ≠ some c := by
  intro hw
  cases w with
  | nil => exact h.ne_nil rfl
  | cons d w =>
    obtain rfl : d = c := by simpa using hw
    refine head?_phrase_ne tag hc ?_
    rw [← h]
    rfl

/-- **Phrases are prefix-free**: two phrases at the start of one text are the same. -/
theorem SpelledBy.append_inj (h : tag.SpelledBy w) (h' : tag'.SpelledBy w')
    (he : w ++ v = w' ++ v') : tag = tag' ∧ w = w' ∧ v = v' := by
  have htag : tag = tag' := by
    have hfold : Text.foldCase w ++ Text.foldCase v = Text.foldCase w' ++ Text.foldCase v' := by
      rw [← Text.foldCase_append, he, Text.foldCase_append]
    rw [h, h'] at hfold
    have hp : Text.foldCase tag.phrase.toList <+:
        Text.foldCase tag'.phrase.toList ++ Text.foldCase v' := ⟨_, hfold⟩
    rcases List.prefix_or_prefix_of_prefix hp (List.prefix_append _ _) with hp | hp
    · exact phrase_prefix_inj hp
    · exact (phrase_prefix_inj hp).symm
  subst htag
  obtain ⟨rfl, rfl⟩ := List.append_inj he (h.length_eq.trans h'.length_eq.symm)
  exact ⟨rfl, rfl, rfl⟩

end Tag

namespace BinaryOp

@[simp] theorem size_symbol (op : BinaryOp) : Text.size op.symbol.toList = 1 := by
  cases op <;> rfl

theorem symbol_append_inj {op op' : BinaryOp} {v v' : Text}
    (h : op.symbol.toList ++ v = op'.symbol.toList ++ v') : op = op' ∧ v = v' := by
  cases op <;> cases op' <;> simp_all [symbol]

theorem head?_symbol_append (op : BinaryOp) (v : Text) :
    (op.symbol.toList ++ v).head? ≠ some ' ' := by
  cases op <;> simp [symbol]

end BinaryOp

namespace OperandSpelling

variable {x y : OperandSpelling} {v v' : Text}

theorem text_ne_nil (x : OperandSpelling) : x.text ≠ [] := by
  intro h
  exact x.spelledBy_word.ne_nil (List.append_eq_nil_iff.1 h).2

theorem head?_text_ne (x : OperandSpelling) {c : Char} (hc : c ∈ [' ', '|', '&']) (v : Text) :
    (x.text ++ v).head? ≠ some c := by
  obtain ⟨negated, tag, w, hw⟩ := x
  cases negated with
  | true =>
    have : c ≠ '-' := by
      rintro rfl
      revert hc
      decide
    simpa [text] using this.symm
  | false =>
    have hc' : c ∈ [' ', '-', '|', '&'] := by
      rcases List.mem_cons.1 hc with rfl | hc
      · exact List.mem_cons_self
      · exact List.mem_cons_of_mem _ (List.mem_cons_of_mem _ hc)
    simpa [text] using hw.head?_ne hc' v

/-- **An operand is read in one way.** -/
theorem text_append_inj (h : x.text ++ v = y.text ++ v') : x = y ∧ v = v' := by
  obtain ⟨nx, tx, wx, hx⟩ := x
  obtain ⟨ny, ty, wy, hy⟩ := y
  have key : wx ++ v = wy ++ v' → nx = ny →
      OperandSpelling.mk nx tx wx hx = OperandSpelling.mk ny ty wy hy ∧ v = v' := by
    intro he hn
    obtain ⟨rfl, rfl, rfl⟩ := hx.append_inj hy he
    subst hn
    exact ⟨rfl, rfl⟩
  -- a phrase does not begin with a sign, so both operands have one or neither has
  cases nx <;> cases ny
  · exact key (by simpa [text] using h) rfl
  · refine absurd ?_ (hx.head?_ne (c := '-') (by decide) v)
    simp [text] at h
    simp [h]
  · refine absurd ?_ (hy.head?_ne (c := '-') (by decide) v')
    simp [text] at h
    simp [← h]
  · exact key (by simpa [text] using h) rfl

end OperandSpelling

namespace ClauseSpelling

variable {x y : ClauseSpelling} {xs ys : List ClauseSpelling} {v v' : Text}

theorem text_append (x : ClauseSpelling) (v : Text) :
    x.text ++ v = Text.spaces x.before ++
      (x.op.symbol.toList ++ (Text.spaces x.after ++ (x.operand.text ++ v))) := by
  simp [text]

theorem text_ne_nil (x : ClauseSpelling) : x.text ≠ [] := by
  intro h
  rw [text, List.append_eq_nil_iff] at h
  exact x.operand.text_ne_nil h.2

/-- **A clause is read in one way.** -/
theorem text_append_inj (h : x.text ++ v = y.text ++ v') : x = y ∧ v = v' := by
  rw [text_append, text_append] at h
  obtain ⟨hb, h⟩ := Text.spaces_append_inj (BinaryOp.head?_symbol_append _ _)
    (BinaryOp.head?_symbol_append _ _) h
  obtain ⟨hop, h⟩ := BinaryOp.symbol_append_inj h
  obtain ⟨ha, h⟩ := Text.spaces_append_inj (x.operand.head?_text_ne (by decide) _)
    (y.operand.head?_text_ne (by decide) _) h
  obtain ⟨hx, hv⟩ := OperandSpelling.text_append_inj h
  obtain ⟨bx, ox, ax, opx⟩ := x
  obtain ⟨yb, yo, ya, yop⟩ := y
  simp only at hb hop ha hx
  subst hb hop ha hx
  exact ⟨rfl, hv⟩

theorem flatMap_text_append (h : xs.flatMap text ++ v = ys.flatMap text) :
    ∃ zs, ys = xs ++ zs ∧ v = zs.flatMap text := by
  induction xs generalizing ys with
  | nil => exact ⟨ys, rfl, by simpa using h⟩
  | cons x xs ih =>
    cases ys with
    | nil =>
      rw [List.flatMap_cons, List.append_assoc, List.flatMap_nil] at h
      exact absurd (List.append_eq_nil_iff.1 h).1 x.text_ne_nil
    | cons y ys =>
      simp only [List.flatMap_cons, List.append_assoc] at h
      obtain ⟨rfl, hxs⟩ := text_append_inj h
      obtain ⟨zs, rfl, hv⟩ := ih hxs
      exact ⟨zs, rfl, hv⟩

end ClauseSpelling

namespace QuerySpelling

variable {w w' : QuerySpelling} {v : Text}

theorem text_ne_nil (w : QuerySpelling) : w.text ≠ [] := by
  intro h
  exact w.head.text_ne_nil (List.append_eq_nil_iff.1 h).1

/-- **Only clauses follow a query**, if the whole is a query again. -/
theorem clauses_of_append (h : w.text ++ v = w'.text) :
    ∃ zs, w' = ⟨w.head, w.clauses ++ zs⟩ ∧ v = zs.flatMap ClauseSpelling.text := by
  obtain ⟨x, xs⟩ := w
  obtain ⟨y, ys⟩ := w'
  simp only [text, List.append_assoc] at h
  obtain ⟨rfl, hxs⟩ := OperandSpelling.text_append_inj h
  obtain ⟨zs, rfl, hv⟩ := ClauseSpelling.flatMap_text_append hxs
  exact ⟨zs, rfl, hv⟩

/-- **A text has one spelling.** -/
theorem text_inj (h : w.text = w'.text) : w = w' := by
  obtain ⟨zs, rfl, hv⟩ := clauses_of_append (v := []) ((List.append_nil _).trans h)
  cases zs with
  | nil => simp
  | cons z zs =>
    rw [List.flatMap_cons] at hv
    exact absurd (List.append_eq_nil_iff.1 hv.symm).1 z.text_ne_nil

end QuerySpelling

end TagQuery
