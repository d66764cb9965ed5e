import TagQuery.Proofs.Built
import TagQuery.Proofs.Exactness

/-!
# The case of letters cannot be seen

Two texts are alike if they differ in nothing but the case of ASCII letters (`Text.Alike`).

* An action is blind to case if it does the same on a text in lower case as on the text itself:
  the same value, cursor, memo table and failures (`Action.BlindToCase`).  Every combinator keeps
  this (`Action.Built.blindToCase`), and the terminals of the grammar have it: phrases are compared
  in lower case, and what is compared as it stands has no letters.
* Hence runs over alike texts end in the same way (`Parser.drive_alike`); only the line that is
  shown in a message is taken from the text itself.
* Nothing else is forgotten: an operand says, up to case, which text it was read from, and the
  spans say how many spaces there were (`QuerySpelling.alike_of_query_eq`).
-/

namespace TagQuery

variable {α β : Type}

/-! ### Texts in lower case -/

namespace Text

variable {t u v w : Text} {m n : Nat}

/-- The texts differ in nothing but the case of ASCII letters. -/
def Alike (t u : Text) : Prop := t.foldCase = u.foldCase

instance (t u : Text) : Decidable (t.Alike u) := inferInstanceAs (Decidable (_ = _))

theorem Alike.append (h : t.Alike u) (h' : v.Alike w) : (t ++ v).Alike (u ++ w) := by
  rw [Alike, foldCase_append, foldCase_append, h, h']

theorem Alike.size_eq (h : t.Alike u) : t.size = u.size := by
  rw [← size_foldCase t, h, size_foldCase]

theorem toNat_toLower (c : Char) :
    c.toLower.toNat = if 65 ≤ c.toNat ∧ c.toNat ≤ 90 then c.toNat + 32 else c.toNat := by
  unfold Char.toLower
  by_cases h : 65 ≤ c.toNat ∧ c.toNat ≤ 90
  · have h' : c.val ≥ 'A'.val ∧ c.val ≤ 'Z'.val := h
    rw [dif_pos h', if_pos h]
    show (c.val + ('a'.val - 'A'.val)).toNat = c.val.toNat + 32
    have hle : c.val.toNat ≤ 90 := h.2
    have hdiff : ('a'.val - 'A'.val).toNat = 32 := by decide
    rw [UInt32.toNat_add, hdiff]
    omega
  · have h' : ¬ (c.val ≥ 'A'.val ∧ c.val ≤ 'Z'.val) := h
    rw [dif_neg h', if_neg h]

theorem toLower_toLower (c : Char) : c.toLower.toLower = c.toLower := by
  have h := toNat_toLower c
  rw [← Char.toNat_inj, toNat_toLower c.toLower, if_neg]
  split at h <;> omega

theorem toLower_eq_iff {c d : Char} (hd : d.isAlpha = false) : c.toLower = d ↔ c = d := by
  obtain ⟨hupper, hlower⟩ := Bool.or_eq_false_iff.1 hd
  have hupper : ¬ (d.val ≥ 'A'.val ∧ d.val ≤ 'Z'.val) := of_decide_eq_false hupper
  have hupper : ¬ (65 ≤ d.toNat ∧ d.toNat ≤ 90) := hupper
  have hlower : (decide (d.val ≥ 'a'.val) && decide (d.val ≤ 'z'.val)) = false := hlower
  rw [← Bool.decide_and, decide_eq_false_iff_not] at hlower
  have hlower : ¬ (97 ≤ d.toNat ∧ d.toNat ≤ 122) := hlower
  rw [← Char.toNat_inj, ← Char.toNat_inj, toNat_toLower]
  split <;> omega

@[simp] theorem foldCase_foldCase (t : Text) : t.foldCase.foldCase = t.foldCase := by
  rw [foldCase, foldCase, List.map_map, show Char.toLower ∘ Char.toLower = Char.toLower from
    funext toLower_toLower]

theorem foldCase_eq_iff (h : ∀ d ∈ u, d.isAlpha = false) : t.foldCase = u ↔ t = u := by
  induction u generalizing t with
  | nil => exact List.map_eq_nil_iff
  | cons d u ih =>
    cases t with
    | nil => simp
    | cons c t =>
      rw [foldCase_cons, List.cons.injEq, List.cons.injEq, toLower_eq_iff (h d List.mem_cons_self),
        ih fun e he => h e (List.mem_cons_of_mem d he)]

theorem drop?_foldCase (n : Nat) (t : Text) : t.foldCase.drop? n = (t.drop? n).map foldCase := by
  induction t generalizing n with
  | nil => cases n <;> rfl
  | cons c t ih =>
    cases n with
    | zero => rfl
    | succ n =>
      simp only [foldCase_cons, drop?, utf8Size_toLower]
      split
      · exact ih _
      · rfl

theorem take?_foldCase (n : Nat) (t : Text) : t.foldCase.take? n = (t.take? n).map foldCase := by
  induction t generalizing n with
  | nil => cases n <;> rfl
  | cons c t ih =>
    cases n with
    | zero => rfl
    | succ n =>
      simp only [foldCase_cons, take?, utf8Size_toLower]
      split
      · rw [ih, Option.map_map, Option.map_map]
        rfl
      · rfl

theorem slice?_foldCase (t : Text) (m n : Nat) :
    t.foldCase.slice? m n = (t.slice? m n).map foldCase := by
  unfold slice?
  split
  · rw [drop?_foldCase]
    cases t.drop? m with
    | none => rfl
    | some u => exact take?_foldCase _ u
  · rfl

end Text

/-! ### Lines in lower case -/

namespace LineIndex

open Text

theorem startsFrom_foldCase (n : Nat) (t : Text) : startsFrom n t.foldCase = startsFrom n t := by
  induction t generalizing n with
  | nil => rfl
  | cons c t ih =>
    simp only [foldCase_cons, startsFrom, toLower_eq_iff (d := '\n') rfl, utf8Size_toLower, ih]

@[simp] theorem ofText_foldCase (t : Text) : ofText t.foldCase = ofText t := by
  rw [ofText, ofText, startsFrom_foldCase]

theorem column_foldCase (t : Text) (start offset : Nat) :
    column t.foldCase start offset = column t start offset := by
  unfold column
  rw [slice?_foldCase]
  cases t.slice? start offset with
  | none => rfl
  | some piece => simp [foldCase]

@[simp] theorem position_foldCase (index : LineIndex) (t : Text) (offset : Nat) :
    index.position t.foldCase offset = index.position t offset := by
  simp only [position, size_foldCase, column_foldCase]

theorem trimReturn_foldCase (t : Text) : trimReturn t.foldCase = (trimReturn t).foldCase := by
  have hlast : t.foldCase.getLast? = some '\r' ↔ t.getLast? = some '\r' := by
    rw [foldCase, List.getLast?_map]
    cases t.getLast? with
    | none => simp
    | some c => simp [toLower_eq_iff (c := c) (d := '\r') rfl]
  unfold trimReturn
  by_cases h : t.getLast? = some '\r'
  · rw [if_pos h, if_pos (hlast.2 h)]
    exact List.map_dropLast.symm
  · rw [if_neg h, if_neg (mt hlast.1 h)]

theorem lineText_foldCase (index : LineIndex) (t : Text) (line : Nat) :
    index.lineText t.foldCase line = (index.lineText t line).foldCase := by
  unfold lineText
  cases index.lineStart? line with
  | none => rfl
  | some start =>
    simp only [slice?_foldCase, size_foldCase]
    rw [← trimReturn_foldCase]
    cases t.slice? start _ <;> rfl

end LineIndex

/-! ### Actions that are blind to case -/

/-- The context with the text in lower case. -/
def Context.inLowerCase (c : Context) : Context := { c with input := c.input.foldCase }

/-- On a text in lower case the action does the same as on the text itself. -/
def Action.BlindToCase (x : Action α) : Prop := ∀ c : Context, x c.inLowerCase = x c

namespace Action

theorem BlindToCase.manyUpTo {x : Action α} (h : x.BlindToCase) (limit : Nat) :
    (manyUpTo x limit).BlindToCase := by
  induction limit with
  | zero => exact fun _ => rfl
  | succ limit ih =>
    intro c
    funext s
    rw [manyUpTo_succ_apply, manyUpTo_succ_apply, h c, ih c]

/-- **What is built from terminals that are blind to case is so itself.** -/
theorem Built.blindToCase {T : Action Span → Prop} {ts : List Nat} {x : Action α}
    (h : x.Built T ts) (hT : ∀ x, T x → x.BlindToCase) : x.BlindToCase := by
  induction h with
  | pure | fail | reversed | cursor | moveTo => exact fun _ => rfl
  | terminal h => exact hT _ h
  | map _ f ih =>
    intro c
    funext s
    rw [map_apply, map_apply, ih c]
  | bind _ _ ih ihf =>
    intro c
    funext s
    simp only [bind_apply, ih c, fun a => ihf a c]
  | sequence _ ih =>
    intro c
    funext s
    rw [Action.sequence, Action.sequence, ih c]
  | optional _ ih =>
    intro c
    funext s
    rw [Action.optional, Action.optional, ih c]
  | @choice _ xs h ih =>
    -- by induction on the alternatives, of which `ih` says all that is needed
    clear h
    induction xs with
    | nil => exact fun _ => rfl
    | cons x xs ihxs =>
      intro c
      funext s
      rw [choice_cons_apply, choice_cons_apply, ih x List.mem_cons_self c,
        ihxs (fun y hy => ih y (List.mem_cons_of_mem x hy)) c]
  | many _ ih => exact fun c => ih.manyUpTo c.rounds c
  | memoized _ rule ih =>
    intro c
    funext s
    simp only [Action.memoized, replay_apply, ih c]
    rfl

end Action

namespace Grammar

open TagQuery.Action

/-- What has no letters is found in a text in lower case where it stands in the text itself. -/
theorem literal_blindToCase (rule : Rule) {text : String}
    (h : text.toList.all fun c => !c.isAlpha) : (literal rule text).BlindToCase := by
  have h : ∀ d ∈ text.toList, d.isAlpha = false := by simpa using h
  intro c
  funext s
  have hslice : ∀ stop, c.inLowerCase.input.slice? s.cursor stop = some text.toList ↔
      c.input.slice? s.cursor stop = some text.toList := by
    intro stop
    rw [Context.inLowerCase, Text.slice?_foldCase]
    cases c.input.slice? s.cursor stop with
    | none => simp
    | some m => simp [Text.foldCase_eq_iff h]
  simp only [literal_apply, hslice]

theorem phrase_blindToCase (rule : Rule) (text : String) : (phrase rule text).BlindToCase := by
  intro c
  funext s
  have hslice : ∀ stop, (c.inLowerCase.input.slice? s.cursor stop).map Text.foldCase =
      (c.input.slice? s.cursor stop).map Text.foldCase := by
    intro stop
    rw [Context.inLowerCase, Text.slice?_foldCase]
    cases c.input.slice? s.cursor stop <;> simp
  simp only [phrase_apply, hslice]

theorem Terminal.blindToCase {x : Action Span} (h : Terminal x) : x.BlindToCase := by
  cases h with
  | sign => exact literal_blindToCase _ (by decide)
  | space => exact literal_blindToCase _ (by decide)
  | operator hrow =>
    have hletters : ∀ row ∈ operators, row.1.toList.all fun c => !c.isAlpha := by decide
    exact literal_blindToCase _ (hletters _ hrow)
  | tag tag => exact phrase_blindToCase _ _

/-- **The grammar cannot see the case of letters.** -/
theorem query_blindToCase : query.BlindToCase := by
  have h : query.Built Terminal [] := query_built
  exact h.blindToCase fun _ hx => hx.blindToCase

end Grammar

/-! ### Runs over alike texts -/

/-- The line of a text that a message about a position shows. -/
def Message.shownLine (t : Text) (p : Position) : Text :=
  (LineIndex.ofText t).lineText t (p.line - 1)

/-- The errors about two texts say the same, but for the line of the text that the message
shows. -/
structure ParseError.SameButLine (t u : Text) (e e' : ParseError) : Prop where
  offset_eq : e.offset = e'.offset
  position_eq : e.position = e'.position
  expected_eq : e.expected = e'.expected
  reason_eq : e.reason = e'.reason
  message_eq : ∃ above below : String,
    e.message = above ++ .ofList (Message.shownLine t e.position) ++ below ∧
      e'.message = above ++ .ofList (Message.shownLine u e.position) ++ below
  alike : (Message.shownLine t e.position).Alike (Message.shownLine u e.position)

/-- The verdicts on two texts are the same, but for the line of the text in a message. -/
inductive Verdict.SameButLine (t u : Text) : Verdict α → Verdict α → Prop
  | accepted (a : α) : SameButLine t u (.accepted a) (.accepted a)
  | rejected {e e' : ParseError} (h : e.SameButLine t u e') :
    SameButLine t u (.rejected e) (.rejected e')
  | stuck (fault : Fault) : SameButLine t u (.stuck fault) (.stuck fault)

theorem ParseError.sameButLine_ofFailure {t u : Text} (h : t.Alike u) (offset : Nat)
    (expected : List Expected) (reason : RejectReason) :
    (ofFailure t offset expected reason).SameButLine t u (ofFailure u offset expected reason) := by
  have hindex : LineIndex.ofText t = LineIndex.ofText u := by
    rw [← LineIndex.ofText_foldCase t, h, LineIndex.ofText_foldCase]
  have hposition : (LineIndex.ofText t).position t offset =
      (LineIndex.ofText u).position u offset := by
    rw [← LineIndex.position_foldCase _ t, h, LineIndex.position_foldCase, hindex]
  refine ⟨rfl, hposition, rfl, rfl, ?_, ?_⟩
  · simp only [ofFailure, Message.render, Message.shownLine, hposition]
    exact ⟨_, _, by rw [String.append_assoc], by rw [String.append_assoc]⟩
  · rw [Text.Alike, Message.shownLine, Message.shownLine, ← LineIndex.lineText_foldCase,
      ← LineIndex.lineText_foldCase, h, hindex]

/-- **Runs over alike texts end in the same way.** -/
theorem Parser.drive_alike {p q : Parser} {top : Action α} (htop : top.BlindToCase)
    (h : p.input.Alike q.input) (hm : p.memoize = q.memoize) :
    (p.drive top).1.SameButLine p.input q.input (q.drive top).1 := by
  -- in lower case the two texts are one, so that the actions do the same on them
  have hcontext : (p.restart.context 0).inLowerCase = (q.restart.context 0).inLowerCase := by
    simp only [Context.inLowerCase, context, rounds, restart, h.size_eq, hm, show _ = _ from h]
  have hreply : top (q.restart.context 0) q.restart.state =
      top (p.restart.context 0) p.restart.state := by
    rw [← htop (p.restart.context 0), hcontext, htop]
    rfl
  cases hp : top (p.restart.context 0) p.restart.state with
  | matched a s =>
    rw [drive_of_matched hp, drive_of_matched (hreply.trans hp)]
    by_cases hstop : s.cursor = p.input.size
    · rw [if_pos hstop, if_pos (hstop.trans h.size_eq)]
      exact .accepted a
    · rw [if_neg hstop, if_neg (h.size_eq ▸ hstop)]
      exact .rejected (ParseError.sameButLine_ofFailure h _ _ _)
  | failed s =>
    rw [drive_of_failed hp, drive_of_failed (hreply.trans hp)]
    exact .rejected (ParseError.sameButLine_ofFailure h _ _ _)
  | stuck e =>
    rw [drive_of_stuck hp, drive_of_stuck (hreply.trans hp)]
    exact .stuck e

/-! ### What a query says about its text -/

/-- An operand says, up to case, which text it was read from. -/
theorem OperandSpelling.alike_of_identifier_eq {x y : OperandSpelling} {n : Nat}
    (h : x.identifier n = y.identifier n) : x.text.Alike y.text := by
  have hoperand : x.operand = y.operand := by
    rw [← operand_identifier n x, h, operand_identifier]
  obtain ⟨negated, tag, w, hw⟩ := x
  obtain ⟨negated', tag', w', hw'⟩ := y
  obtain ⟨rfl, rfl⟩ := Operand.mk.inj hoperand
  have hword : w.Alike w' := hw.trans hw'.symm
  exact Text.Alike.append rfl hword

theorem Span.start_eq_of_ofLength_eq {m n j k : Nat} (h : ofLength m j = ofLength n k)
    (hm : m + j ≤ maxOffset) (hn : n + k ≤ maxOffset) : m = n := by
  rw [← start_ofLength hm, h, start_ofLength hn]

namespace ClauseSpelling

variable {n : Nat}

theorem alike_of_parts_eq {x y : ClauseSpelling} (h : x.parts n = y.parts n)
    (hx : n + x.text.size ≤ Span.maxOffset) (hy : n + y.text.size ≤ Span.maxOffset) :
    x.text.Alike y.text := by
  obtain ⟨hoperator, hidentifier⟩ := Prod.mk.inj h
  obtain ⟨hop, hspan⟩ := Operator.mk.inj hoperator
  rw [size_text] at hx hy
  have hxlead := x.add_lead n
  have hylead := y.add_lead n
  have hbefore : n + x.before = n + y.before :=
    Span.start_eq_of_ofLength_eq hspan (by omega) (by omega)
  have hlead : n + x.lead = n + y.lead :=
    Span.start_eq_of_ofLength_eq (congrArg Identifier.span hidentifier) (by omega) (by omega)
  have hoperand : x.operand.text.Alike y.operand.text := by
    rw [hlead] at hidentifier
    exact OperandSpelling.alike_of_identifier_eq hidentifier
  have hb : x.before = y.before := by omega
  have ha : x.after = y.after := by omega
  rw [text, text, hb, ha, hop]
  exact Text.Alike.append rfl hoperand

theorem alike_of_partsAll_eq {xs ys : List ClauseSpelling}
    (h : partsAll n xs = partsAll n ys)
    (hx : n + Text.size (xs.flatMap text) ≤ Span.maxOffset)
    (hy : n + Text.size (ys.flatMap text) ≤ Span.maxOffset) :
    Text.Alike (xs.flatMap text) (ys.flatMap text) := by
  induction xs generalizing n ys with
  | nil =>
    cases ys with
    | nil => rfl
    | cons y ys => simp [partsAll] at h
  | cons x xs ih =>
    cases ys with
    | nil => simp [partsAll] at h
    | cons y ys =>
      rw [partsAll, partsAll, List.cons.injEq] at h
      rw [List.flatMap_cons, Text.size_append] at hx hy
      have hhead := alike_of_parts_eq h.1 (by omega) (by omega)
      have hsize := hhead.size_eq
      rw [List.flatMap_cons, List.flatMap_cons]
      exact hhead.append (ih (hsize ▸ h.2) (by omega) (by omega))

end ClauseSpelling

/-- **A query says, up to case, which text it was read from**, if spans can say where its parts
are. -/
theorem QuerySpelling.alike_of_query_eq {w w' : QuerySpelling} (h : w.query 0 = w'.query 0)
    (hw : w.text.size ≤ Span.maxOffset) (hw' : w'.text.size ≤ Span.maxOffset) :
    w.text.Alike w'.text := by
  obtain ⟨hhead, hrest, -⟩ := Query.mk.inj h
  have halike := OperandSpelling.alike_of_identifier_eq hhead
  have hsize := halike.size_eq
  rw [text, Text.size_append] at hw hw'
  exact halike.append
    (ClauseSpelling.alike_of_partsAll_eq (hsize ▸ hrest) (by omega) (by omega))

/-- **Reading forgets case and nothing else.**  Texts that differ in the case of ASCII letters are
read as the same query, with the same spans, or are rejected for the same reason, at the same
place and with the same tokens expected there; only the line that the message shows is that of the
text itself.  The other way round, texts that are read as the same query differ in nothing but the
case of letters, if spans can say where everything stands. -/
theorem parse_alike :
    (∀ s s' : String, Text.Alike s.toList s'.toList →
      (∃ q, parse s = .accepted q ∧ parse s' = .accepted q) ∨
        ∃ e e', parse s = .rejected e ∧ parse s' = .rejected e' ∧
          e.SameButLine s.toList s'.toList e') ∧
    ∀ (s s' : String) (q : Query), Text.size s.toList ≤ Span.maxOffset →
      Text.size s'.toList ≤ Span.maxOffset → parse s = .accepted q → parse s' = .accepted q →
        Text.Alike s.toList s'.toList := by
  constructor
  · intro s s' h
    have hdrive : (parse s).SameButLine s.toList s'.toList (parse s') :=
      Parser.drive_alike (p := .new s true) (q := .new s' true) Grammar.query_blindToCase h rfl
    have hne := parseWith_ne_stuck true s
    revert hdrive
    generalize hv : parse s = v
    generalize hv' : parse s' = v'
    intro hdrive
    cases hdrive with
    | accepted q => exact Or.inl ⟨q, rfl, rfl⟩
    | rejected he => exact Or.inr ⟨_, _, rfl, rfl, he⟩
    | stuck e => exact absurd hv (hne e)
  · intro s s' q hs hs' hq hq'
    obtain ⟨w, hw, rfl⟩ := exists_of_accepted hq
    obtain ⟨w', hw', heq⟩ := exists_of_accepted hq'
    rw [hw] at hs ⊢
    rw [hw'] at hs' ⊢
    exact QuerySpelling.alike_of_query_eq heq hs hs'

/-- Upper case makes no difference to a query or to what is wrong with one. -/
theorem parse_alike_upper :
    (∃ q, parse "-BOOSTER &subject" = .accepted q ∧ parse "-booster &Subject" = .accepted q ∧
      Text.Alike "-BOOSTER &subject".toList "-booster &Subject".toList) ∧
    ∃ e e', parse "Object|X" = .rejected e ∧ parse "object|x" = .rejected e' ∧
      e.SameButLine "Object|X".toList "object|x".toList e' := by
  obtain ⟨q, h, h'⟩ : ∃ q, parse "-BOOSTER &subject" = .accepted q ∧
      parse "-booster &Subject" = .accepted q :=
    ⟨⟨⟨some (.ofLength 0 1), ⟨.booster, .ofLength 1 7⟩, .ofLength 0 8⟩,
      [(⟨.and, .ofLength 9 1⟩, ⟨none, ⟨.subject, .ofLength 10 7⟩, .ofLength 10 7⟩)],
      .ofLength 0 17⟩, by decide +kernel, by decide +kernel⟩
  -- an error holds a whole message, so only that it is one is evaluated
  have hrejected : ∀ q, parse "Object|X" ≠ .accepted q := by
    have hverdict : (parse "Object|X" matches .rejected _) = true := by decide +kernel
    intro q hq
    rw [hq] at hverdict
    cases hverdict
  refine ⟨⟨q, h, h', parse_alike.2 _ _ q (by decide) (by decide) h h'⟩, ?_⟩
  rcases parse_alike.1 "Object|X" "object|x" (by decide) with ⟨q, hq, -⟩ | herror
  · exact absurd hq (hrejected q)
  · exact herror

end TagQuery
