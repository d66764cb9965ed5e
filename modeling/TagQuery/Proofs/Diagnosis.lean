import TagQuery.Proofs.Exactness

/-!
# What a reader is told

The errors of rejected queries have five shapes.  Which one it is, and where it points, can be
read off the text once the number of consumed bytes is known: count the spaces, look for an
operator, count the spaces again, look for a `-`.  A `Diagnosis` names a shape with these counts;
`Diagnosis.Holds` is what it says about the text, `Diagnosis.Explains` what it says about the
error.

Each gap has a diagnosis (`OperandGap.holds_diagnosis`, `ClauseGap.holds_diagnosis`), and a text
has no more than one for each reason to reject it (`Diagnosis.eq_of_holds`).
-/

namespace TagQuery

/-- Behind the first `c` bytes of the text and all the spaces there, `k` of them, stands `v`. -/
def Text.Leaves (t : Text) (c k : Nat) (v : Text) : Prop :=
  ∃ u, t = u ++ (spaces k ++ v) ∧ size u = c ∧ v.head? ≠ some ' '

theorem Text.Leaves.unique {t v v' : Text} {c k k' : Nat} (h : t.Leaves c k v)
    (h' : t.Leaves c k' v') : k = k' ∧ v = v' := by
  obtain ⟨u, hu, hc, hv⟩ := h
  obtain ⟨u', hu', hc', hv'⟩ := h'
  obtain ⟨-, hkv⟩ := append_inj_size (hu.symm.trans hu') (hc.trans hc'.symm)
  exact spaces_append_inj hv hv' hkv

theorem Text.Leaves.not_noOperator {t v r : Text} {c k k' : Nat} {op : BinaryOp}
    (h : t.Leaves c k (op.symbol.toList ++ r)) (h' : t.Leaves c k' v) : ¬ v.NoOperator :=
  fun hno => hno op r (h'.unique h).2

/-- The shapes that the error of a rejected query can have. -/
inductive Diagnosis where
  /-- The text does not begin with an identifier. -/
  | start
  /-- The text begins with a `-` and no tag after it. -/
  | startSign
  /-- After `c` bytes and `k` spaces there is no operator. -/
  | operator (c k : Nat)
  /-- After `c` bytes, `k` spaces, an operator and `m` spaces there is no identifier. -/
  | operand (c k m : Nat)
  /-- After `c` bytes, `k` spaces, an operator and `m` spaces there is a `-` and no tag after it. -/
  | operandSign (c k m : Nat)
deriving DecidableEq, Repr

namespace Diagnosis

/-- What the text looks like. -/
def Holds (t : Text) : Diagnosis → Prop
  | start => t.head? ≠ some '-'
  | startSign => t.head? = some '-'
  | operator c k => ∃ v, t.Leaves c k v ∧ v.NoOperator
  | operand c k m => ∃ (op : BinaryOp) (v : Text),
    t.Leaves c k (op.symbol.toList ++ (Text.spaces m ++ v)) ∧ v.head? ≠ some ' ' ∧
      v.head? ≠ some '-'
  | operandSign c k m => ∃ (op : BinaryOp) (v : Text),
    t.Leaves c k (op.symbol.toList ++ (Text.spaces m ++ v)) ∧ v.head? = some '-'

/-- Why the text is rejected. -/
def reason : Diagnosis → RejectReason
  | start | startSign => .noMatch
  | operator c _ | operand c .. | operandSign c .. => .trailingInput c

/-- Where the error points. -/
def offset : Diagnosis → Nat
  | start => 0
  | startSign => 1
  | operator c k => c + k
  | operand c k m => c + k + 1 + m
  | operandSign c k m => c + k + 1 + m + 1

/-- What is expected there. -/
def expected : Diagnosis → List Expected
  | start => Expected.sign :: Expected.tags
  | operator .. => Expected.space :: Expected.operators
  | operand .. => Expected.space :: Expected.sign :: Expected.tags
  | startSign | operandSign .. => Expected.tags

/-- The text looks so, and the error says so. -/
structure Explains (d : Diagnosis) (t : Text) (e : ParseError) : Prop where
  holds : d.Holds t
  reason : e.reason = d.reason
  offset : e.offset = d.offset
  expected : e.expected = d.expected

/-- The spaces and the operator leave no choice. -/
theorem operand_unique {t v v' : Text} {c k k' m m' : Nat} {op op' : BinaryOp}
    (h : t.Leaves c k (op.symbol.toList ++ (Text.spaces m ++ v))) (hv : v.head? ≠ some ' ')
    (h' : t.Leaves c k' (op'.symbol.toList ++ (Text.spaces m' ++ v')))
    (hv' : v'.head? ≠ some ' ') : k = k' ∧ m = m' ∧ v = v' := by
  obtain ⟨hk, hrest⟩ := h.unique h'
  obtain ⟨-, hrest⟩ := BinaryOp.symbol_append_inj hrest
  obtain ⟨hm, hv⟩ := Text.spaces_append_inj hv hv' hrest
  exact ⟨hk, hm, hv⟩

/-- A text has one diagnosis for each reason. -/
theorem eq_of_holds {t : Text} {d d' : Diagnosis} (h : d.Holds t) (h' : d'.Holds t)
    (hr : d.reason = d'.reason) : d = d' := by
  have hsign : ∀ {v : Text}, v.head? = some '-' → v.head? ≠ some ' ' := by
    intro v hv
    simp [hv]
  -- the reason tells the two shapes at the start from the three behind a query
  cases d <;> cases d' <;> simp only [Diagnosis.reason, RejectReason.trailingInput.injEq,
    reduceCtorEq] at hr
  case start.start => rfl
  case start.startSign => exact absurd h' h
  case startSign.start => exact absurd h h'
  case startSign.startSign => rfl
  case operator.operator =>
    subst hr
    obtain ⟨v, hl, -⟩ := h
    obtain ⟨v', hl', -⟩ := h'
    rw [(hl.unique hl').1]
  case operator.operand | operator.operandSign =>
    subst hr
    obtain ⟨v, hl, hno⟩ := h
    obtain ⟨op, v', hl', -⟩ := h'
    exact absurd hno (hl'.not_noOperator hl)
  case operand.operator | operandSign.operator =>
    subst hr
    obtain ⟨op, v, hl, -⟩ := h
    obtain ⟨v', hl', hno⟩ := h'
    exact absurd hno (hl.not_noOperator hl')
  case operand.operand =>
    subst hr
    obtain ⟨op, v, hl, hv, -⟩ := h
    obtain ⟨op', v', hl', hv', -⟩ := h'
    obtain ⟨rfl, rfl, -⟩ := operand_unique hl hv hl' hv'
    rfl
  case operand.operandSign =>
    subst hr
    obtain ⟨op, v, hl, hv, hno⟩ := h
    obtain ⟨op', v', hl', hv'⟩ := h'
    obtain ⟨-, -, rfl⟩ := operand_unique hl hv hl' (hsign hv')
    exact absurd hv' hno
  case operandSign.operand =>
    subst hr
    obtain ⟨op, v, hl, hv⟩ := h
    obtain ⟨op', v', hl', hv', hno⟩ := h'
    obtain ⟨-, -, rfl⟩ := operand_unique hl (hsign hv) hl' hv'
    exact absurd hv hno
  case operandSign.operandSign =>
    subst hr
    obtain ⟨op, v, hl, hv⟩ := h
    obtain ⟨op', v', hl', hv'⟩ := h'
    obtain ⟨rfl, rfl, -⟩ := operand_unique hl (hsign hv) hl' (hsign hv')
    rfl

end Diagnosis

/-! ### The diagnosis of a gap -/

namespace OperandGap

/-- What is said about a gap at the start. -/
def diagnosis : OperandGap → Diagnosis
  | unsigned .. => .start
  | signed .. => .startSign

theorem holds_diagnosis (g : OperandGap) : g.diagnosis.Holds g.text := by
  cases g with
  | unsigned rest noSign noPhrase => exact noSign
  | signed rest noPhrase => rfl

theorem explains {g : OperandGap} {t : Text} (h : t = g.text) :
    g.diagnosis.Explains t (.ofFailure t (g.place 0) g.expected .noMatch) := by
  subst h
  refine ⟨g.holds_diagnosis, ?_, ?_, ?_⟩ <;> cases g <;> rfl

end OperandGap

namespace ClauseGap

/-- What is said about a gap after `c` bytes. -/
def diagnosis (c : Nat) : ClauseGap → Diagnosis
  | operator before .. => .operator c before
  | operand before _ after (.unsigned ..) _ => .operand c before after
  | operand before _ after (.signed ..) _ => .operandSign c before after

theorem holds_diagnosis (u : Text) (g : ClauseGap) :
    (g.diagnosis u.size).Holds (u ++ g.text) := by
  rcases g with ⟨before, rest, noSpace, noOperator⟩ |
    ⟨before, op, after, ⟨rest, noSign, noPhrase⟩ | ⟨rest, noPhrase⟩, noSpace⟩
  · exact ⟨rest, ⟨u, rfl, rfl, noSpace⟩, noOperator⟩
  · exact ⟨op, rest, ⟨u, rfl, rfl, BinaryOp.head?_symbol_append op _⟩, noSpace rest _ _ rfl,
      noSign⟩
  · exact ⟨op, '-' :: rest, ⟨u, rfl, rfl, BinaryOp.head?_symbol_append op _⟩, rfl⟩

theorem explains {u t : Text} {g : ClauseGap} (h : t = u ++ g.text) :
    (g.diagnosis u.size).Explains t
      (.ofFailure t (g.place u.size) g.expected (.trailingInput u.size)) := by
  subst h
  refine ⟨g.holds_diagnosis u, ?_, ?_, ?_⟩ <;>
    rcases g with _ | ⟨_, _, _, _ | _, _⟩ <;> rfl

end ClauseGap

/-! ### All that can be said -/

theorem Expected.token_ne_endOfInput {x : Expected} (hx : x ∈ Expected.all) :
    x.token ≠ .endOfInput := by
  revert x
  decide +kernel

/-- **A rejected query has exactly one diagnosis**, and it explains the error.  Something is
expected, nothing twice and never the end of the input, and the place is where the query ends or
behind it. -/
theorem rejected_explained (s : String) (e : ParseError) (h : parse s = .rejected e) :
    (∃ d : Diagnosis, d.Explains s.toList e ∧ ∀ d', d'.Explains s.toList e → d' = d) ∧
      e.expected ≠ [] ∧ e.expected.Nodup ∧ (∀ x ∈ e.expected, x.token ≠ .endOfInput) ∧
      ∀ c, e.reason = .trailingInput c → c ≤ e.offset := by
  have hunique : ∀ d d' : Diagnosis, d.Explains s.toList e → d'.Explains s.toList e → d' = d :=
    fun d d' hd hd' =>
      Diagnosis.eq_of_holds hd'.holds hd.holds (hd'.reason.symm.trans hd.reason)
  rcases exists_of_rejected h with ⟨g, hg, rfl⟩ | ⟨w, g, hw, rfl⟩
  · have hd := OperandGap.explains hg
    refine ⟨⟨_, hd, fun d' => hunique _ d' hd⟩, g.expected_ne_nil, g.nodup_expected, ?_, ?_⟩
    · exact fun x hx => Expected.token_ne_endOfInput (g.expected_subset hx)
    · rintro c ⟨⟩
  · have hd := ClauseGap.explains hw
    refine ⟨⟨_, hd, fun d' => hunique _ d' hd⟩, g.expected_ne_nil, g.nodup_expected, ?_, ?_⟩
    · exact fun x hx => Expected.token_ne_endOfInput (g.expected_subset hx)
    · rintro c ⟨⟩
      exact g.le_place _

/-- After an operator and nothing else, an identifier or one more space is missing. -/
theorem rejected_explained_dangling : ∃ e, parse "booster |" = .rejected e ∧ e.offset = 9 ∧
    (∃ d : Diagnosis, d.Explains "booster |".toList e ∧
      ∀ d', d'.Explains "booster |".toList e → d' = d) ∧ e.expected ≠ [] := by
  have h : parse "booster |" = .rejected (.ofFailure "booster |".toList 9
      (Expected.space :: Expected.sign :: Expected.tags) (.trailingInput 7)) := by
    decide +kernel
  have key := rejected_explained _ _ h
  exact ⟨_, h, rfl, key.1, key.2.1⟩

end TagQuery
