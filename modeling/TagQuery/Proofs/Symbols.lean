import TagQuery.Proofs.Spelling

/-!
# Where the operators stand

No phrase holds the symbol of an operator, so the symbols in the text of a query are its operators
and nothing else: there are as many of them as clauses (`QuerySpelling.countP_symbol`), and what
stands before and after one of them is, apart from spaces, a query
(`QuerySpelling.exists_of_symbol`).
-/

namespace TagQuery

/-! ### Symbols and spaces in a text -/

namespace Text

variable {t u v w : Text} {c : Char} {j k : Nat}

theorem append_eq_append_cons (hc : c ∉ t) (h : t ++ u = v ++ c :: w) :
    ∃ m, v = t ++ m ∧ u = m ++ c :: w := by
  rcases List.append_eq_append_iff.1 h with ⟨m, rfl, rfl⟩ | ⟨m, rfl, hm⟩
  · exact ⟨m, rfl, rfl⟩
  · cases m with
    | nil => exact ⟨[], by simp, by simpa using hm.symm⟩
    | cons d m =>
      obtain ⟨rfl, -⟩ := List.cons.inj hm
      simp at hc

theorem symbol_notMem_spaces (hc : c ∈ ['|', '&']) (n : Nat) : c ∉ spaces n := by
  intro hmem
  obtain rfl := List.eq_of_mem_replicate hmem
  revert hc
  decide

theorem countP_symbol_eq_zero (h : ∀ c ∈ ['|', '&'], c ∉ t) :
    t.countP (· ∈ ['|', '&']) = 0 :=
  List.countP_eq_zero.2 fun c hct hc => h c (of_decide_eq_true hc) hct

theorem append_spaces_inj (hu : u.getLast? ≠ some ' ') (hv : v.getLast? ≠ some ' ')
    (h : u ++ spaces j = v ++ spaces k) : u = v ∧ j = k := by
  have hrev : ∀ n, (spaces n).reverse = spaces n := fun n => List.reverse_replicate
  have h' := congrArg List.reverse h
  rw [List.reverse_append, List.reverse_append, hrev, hrev] at h'
  obtain ⟨hjk, huv⟩ := spaces_append_inj (by rwa [List.head?_reverse])
    (by rwa [List.head?_reverse]) h'
  exact ⟨List.reverse_inj.1 huv, hjk⟩

end Text

theorem BinaryOp.exists_symbol_eq (op : BinaryOp) :
    ∃ c ∈ ['|', '&'], op.symbol.toList = [c] := by
  cases op with
  | or => exact ⟨'|', by decide, rfl⟩
  | and => exact ⟨'&', by decide, rfl⟩

/-! ### Characters of operands -/

namespace Tag

variable {tag : Tag} {w : Text} {c : Char}

/-- No phrase holds the symbol of an operator. -/
theorem SpelledBy.symbol_notMem (h : tag.SpelledBy w) (hc : c ∈ ['|', '&']) : c ∉ w := by
  have key : ∀ t ∈ all, ['|', '&'].all (fun c =>
      c.toLower ∉ Text.foldCase t.phrase.toList) = true := by
    decide +kernel
  intro hw
  have hfold : c.toLower ∈ w.foldCase := List.mem_map_of_mem hw
  rw [h] at hfold
  exact of_decide_eq_true (List.all_eq_true.1 (key tag (mem_all tag)) c hc) hfold

theorem SpelledBy.getLast?_ne (h : tag.SpelledBy w) : w.getLast? ≠ some ' ' := by
  have key : ∀ t ∈ all, (Text.foldCase t.phrase.toList).getLast? ≠ some ' ' := by
    decide +kernel
  intro hw
  refine key tag (mem_all tag) ?_
  rw [← h, Text.foldCase, List.getLast?_map, hw]
  rfl

end Tag

namespace OperandSpelling

variable {c : Char}

theorem symbol_notMem (x : OperandSpelling) (hc : c ∈ ['|', '&']) : c ∉ x.text := by
  have hsign : c ≠ '-' := by
    rintro rfl
    revert hc
    decide
  have hw := x.spelledBy_word.symbol_notMem hc
  rw [text]
  split <;> simp [hsign, hw]

theorem getLast?_text_ne (x : OperandSpelling) : x.text.getLast? ≠ some ' ' := by
  intro h
  rw [text, List.getLast?_append, Option.or_eq_some_iff, List.getLast?_eq_none_iff] at h
  rcases h with h | ⟨hnil, -⟩
  · exact x.spelledBy_word.getLast?_ne h
  · exact x.spelledBy_word.ne_nil hnil

end OperandSpelling

/-! ### Operators of clauses -/

namespace ClauseSpelling

variable {t u v : Text} {xs : List ClauseSpelling} {op : BinaryOp} {c : Char}

theorem countP_symbol (x : ClauseSpelling) : x.text.countP (· ∈ ['|', '&']) = 1 := by
  have hspaces : ∀ n, (Text.spaces n).countP (· ∈ ['|', '&']) = 0 := fun n =>
    Text.countP_symbol_eq_zero fun _ hc => Text.symbol_notMem_spaces hc n
  have hop : x.op.symbol.toList.countP (· ∈ ['|', '&']) = 1 := by cases x.op <;> rfl
  have hoperand : x.operand.text.countP (· ∈ ['|', '&']) = 0 :=
    Text.countP_symbol_eq_zero fun _ hc => x.operand.symbol_notMem hc
  simp only [text, List.countP_append, hspaces, hop, hoperand]

/-- A symbol in a text of clauses is the operator of one of them. -/
theorem exists_of_symbol (ht : ∀ c ∈ ['|', '&'], c ∉ t)
    (h : t ++ xs.flatMap text = u ++ (op.symbol.toList ++ v)) :
    ∃ ys y zs, xs = ys ++ y :: zs ∧ y.op = op ∧
      u = t ++ ys.flatMap text ++ Text.spaces y.before ∧
      v = Text.spaces y.after ++ (y.operand.text ++ zs.flatMap text) := by
  obtain ⟨c, hc, hop⟩ := op.exists_symbol_eq
  induction xs generalizing t u with
  | nil =>
    have hmem : c ∈ t := by
      rw [List.flatMap_nil, List.append_nil] at h
      simp [h, hop]
    exact absurd hmem (ht c hc)
  | cons x xs ih =>
    have hfront : c ∉ t ++ Text.spaces x.before := by
      simp [ht c hc, Text.symbol_notMem_spaces hc]
    rw [List.flatMap_cons, text_append, ← List.append_assoc, hop] at h
    obtain ⟨m, rfl, hm⟩ := Text.append_eq_append_cons hfront h
    obtain ⟨c', -, hop'⟩ := x.op.exists_symbol_eq
    cases m with
    | nil =>
      -- the symbol is that of the first clause
      rw [List.nil_append] at hm
      obtain ⟨rfl, rfl⟩ := BinaryOp.symbol_append_inj (hm.trans (by rw [hop]; rfl))
      exact ⟨[], x, xs, rfl, rfl, by simp, rfl⟩
    | cons d m =>
      -- it is further on, and the operand of the first clause holds none
      rw [hop', List.singleton_append, List.cons_append, List.cons.injEq] at hm
      obtain ⟨rfl, hm⟩ := hm
      have hback : ∀ c ∈ ['|', '&'], c ∉ Text.spaces x.after ++ x.operand.text := by
        intro c hc
        simp [x.operand.symbol_notMem hc, Text.symbol_notMem_spaces hc]
      rw [← List.append_assoc] at hm
      obtain ⟨ys, y, zs, rfl, hy, rfl, hv⟩ := ih hback (by rw [hop]; exact hm)
      refine ⟨x :: ys, y, zs, rfl, hy, ?_, hv⟩
      simp [text, hop']

theorem getLast?_append_ne (ht : t.getLast? ≠ some ' ') :
    (t ++ xs.flatMap text).getLast? ≠ some ' ' := by
  induction xs generalizing t with
  | nil => simpa using ht
  | cons x xs ih =>
    rw [List.flatMap_cons, ← List.append_assoc]
    refine ih fun h => ?_
    rw [text, ← List.append_assoc, List.getLast?_append, Option.or_eq_some_iff,
      List.getLast?_eq_none_iff] at h
    rcases h with h | ⟨hnil, -⟩
    · exact x.operand.getLast?_text_ne h
    · exact x.operand.text_ne_nil hnil

end ClauseSpelling

namespace QuerySpelling

variable {u v : Text} {op : BinaryOp}

/-- **There are as many symbols as clauses.** -/
theorem countP_symbol (w : QuerySpelling) :
    w.text.countP (· ∈ ['|', '&']) = w.clauses.length := by
  have hhead : w.head.text.countP (· ∈ ['|', '&']) = 0 :=
    Text.countP_symbol_eq_zero fun _ hc => w.head.symbol_notMem hc
  rw [text, List.countP_append, hhead, Nat.zero_add]
  induction w.clauses with
  | nil => rfl
  | cons x xs ih =>
    rw [List.flatMap_cons, List.countP_append, ih, x.countP_symbol, List.length_cons, Nat.add_comm]

/-- **A symbol stands between two queries.** -/
theorem exists_of_symbol {w : QuerySpelling} (h : w.text = u ++ (op.symbol.toList ++ v)) :
    ∃ (ys : List ClauseSpelling) (y : ClauseSpelling) (zs : List ClauseSpelling),
      w.clauses = ys ++ y :: zs ∧ y.op = op ∧
      u = (⟨w.head, ys⟩ : QuerySpelling).text ++ Text.spaces y.before ∧
      v = Text.spaces y.after ++ (⟨y.operand, zs⟩ : QuerySpelling).text :=
  ClauseSpelling.exists_of_symbol (fun _ hc => w.head.symbol_notMem hc) h

theorem head?_text_ne (w : QuerySpelling) : w.text.head? ≠ some ' ' :=
  w.head.head?_text_ne (by decide) _

theorem getLast?_text_ne (w : QuerySpelling) : w.text.getLast? ≠ some ' ' :=
  ClauseSpelling.getLast?_append_ne w.head.getLast?_text_ne

end QuerySpelling

end TagQuery
