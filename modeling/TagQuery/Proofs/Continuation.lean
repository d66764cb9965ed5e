import TagQuery.Proofs.Exactness

/-!
# What a rejected query could go on with

The tokens that a gap misses are those that a query can go on with after what has been read, its
`read` part: each of them can (`OperandGap.exists_operand`, `ClauseGap.exists_clause`), and every
query that goes on from there begins with one of them (`OperandGap.exists_begins`,
`ClauseGap.exists_begins`).  It cannot begin with two, as no token is the beginning of another one
(`Expected.Begins.unique`).
-/

namespace TagQuery

/-! ### Tokens at the start of a text -/

namespace Expected

variable {x y : Expected} {w : Text}

/-- The text begins with the token, up to the case of ASCII letters. -/
def Begins (x : Expected) (w : Text) : Prop :=
  ∃ t, x.token.text? = some t ∧ Text.foldCase t.toList <+: w.foldCase

/-- The text of the token in lower case. -/
def lower (x : Expected) : Text := Text.foldCase (x.token.text?.getD "").toList

/-- No token is the beginning of another one. -/
theorem lower_prefix_inj (hx : x ∈ all) (hy : y ∈ all) (h : x.lower <+: y.lower) : x = y := by
  have key : ∀ x ∈ all, ∀ y ∈ all, x.lower.isPrefixOf y.lower = true → x = y := by
    decide +kernel
  exact key x hx y hy (List.isPrefixOf_iff_prefix.2 h)

/-- **A text begins with one token at most.** -/
theorem Begins.unique (hx : x ∈ all) (hy : y ∈ all) (h : x.Begins w) (h' : y.Begins w) :
    x = y := by
  obtain ⟨t, ht, hp⟩ := h
  obtain ⟨t', ht', hp'⟩ := h'
  have hl : x.lower = Text.foldCase t.toList := by rw [lower, ht, Option.getD_some]
  have hl' : y.lower = Text.foldCase t'.toList := by rw [lower, ht', Option.getD_some]
  rw [← hl] at hp
  rw [← hl'] at hp'
  rcases List.prefix_or_prefix_of_prefix hp hp' with hle | hle
  · exact lower_prefix_inj hx hy hle
  · exact (lower_prefix_inj hy hx hle).symm

end Expected

/-! ### Going on where an operand is due -/

namespace OperandGap

variable {g : OperandGap} {x : Expected} {t : String} {w v : Text}

/-- What is read of the gap. -/
def read : OperandGap → Text
  | unsigned .. => []
  | signed .. => ['-']

theorem place_eq (g : OperandGap) (n : Nat) : g.place n = n + g.read.size := by
  cases g <;> rfl

theorem exists_operand (hx : x ∈ g.expected) (ht : x.token.text? = some t) :
    ∃ (y : OperandSpelling) (v : Text), y.text = g.read ++ (t.toList ++ v) := by
  cases g with
  | unsigned =>
    rcases List.mem_cons.1 hx with rfl | hx
    · obtain rfl : "-" = t := Option.some.inj ht
      exact ⟨.canonical ⟨true, .booster⟩, "booster".toList, rfl⟩
    · obtain ⟨tag, -, rfl⟩ := List.mem_map.1 hx
      obtain rfl : tag.phrase = t := Option.some.inj ht
      exact ⟨.canonical ⟨false, tag⟩, [], (List.append_nil _).symm⟩
  | signed =>
    obtain ⟨tag, -, rfl⟩ := List.mem_map.1 hx
    obtain rfl : tag.phrase = t := Option.some.inj ht
    exact ⟨.canonical ⟨true, tag⟩, [], congrArg _ (List.append_nil _).symm⟩

end OperandGap

/-! ### Going on where a clause is due -/

instance : Inhabited OperandSpelling := ⟨.canonical ⟨false, .booster⟩⟩

namespace ClauseGap

variable {g : ClauseGap} {x : Expected} {t : String} {w v : Text}

/-- What is read of the gap. -/
def read : ClauseGap → Text
  | operator before .. => Text.spaces before
  | operand before op after gap _ =>
    Text.spaces before ++ (op.symbol.toList ++ (Text.spaces after ++ gap.read))

theorem place_eq (g : ClauseGap) (n : Nat) : g.place n = n + g.read.size := by
  cases g with
  | operator before => rw [place, read, Text.size_spaces]
  | operand before op after gap =>
    simp only [place, read, gap.place_eq, Text.size_append, Text.size_spaces,
      BinaryOp.size_symbol]
    omega

/-- What is missing after an operator is a space or what the gap after it misses. -/
theorem mem_expected_operand {before after : Nat} {op : BinaryOp} {gap : OperandGap}
    {noSpace : ∀ rest noSign noPhrase, gap = .unsigned rest noSign noPhrase →
      rest.head? ≠ some ' '} :
    x ∈ (operand before op after gap noSpace).expected ↔
      (x = .space ∧ gap.read = []) ∨ x ∈ gap.expected := by
  cases gap with
  | unsigned => simp [expected, OperandGap.expected, OperandGap.read]
  | signed => simp [expected, OperandGap.expected, OperandGap.read]

theorem exists_clause (hx : x ∈ g.expected) (ht : x.token.text? = some t) :
    ∃ (y : ClauseSpelling) (v : Text), y.text = g.read ++ (t.toList ++ v) := by
  cases g with
  | operator before =>
    rcases List.mem_cons.1 hx with rfl | hx
    · obtain rfl : " " = t := Option.some.inj ht
      refine ⟨⟨before + 1, .or, 0, default⟩, "|".toList ++ OperandSpelling.text default, ?_⟩
      simp [ClauseSpelling.text, read, BinaryOp.symbol, Text.spaces, List.replicate_succ']
    · obtain ⟨op, -, rfl⟩ := List.mem_map.1 hx
      obtain rfl : op.symbol = t := Option.some.inj ht
      exact ⟨⟨before, op, 0, default⟩, OperandSpelling.text default,
        by simp [ClauseSpelling.text, read]⟩
  | operand before op after gap =>
    -- one more space is fine as long as no sign has been read
    rcases mem_expected_operand.1 hx with ⟨rfl, hread⟩ | hx
    · obtain rfl : " " = t := Option.some.inj ht
      refine ⟨⟨before, op, after + 1, default⟩, OperandSpelling.text default, ?_⟩
      simp [ClauseSpelling.text, read, hread, Text.spaces, List.replicate_succ']
    · obtain ⟨y, v, hy⟩ := gap.exists_operand hx ht
      exact ⟨⟨before, op, after, y⟩, v, by simp [ClauseSpelling.text, read, hy]⟩

end ClauseGap

/-! ### Going on with a query -/

theorem exists_accepted_of_text {s : String} {w : QuerySpelling} (h : s.toList = w.text) :
    ∃ q, parse s = .accepted q := ⟨_, parseWith_of_text true w h⟩

end TagQuery
