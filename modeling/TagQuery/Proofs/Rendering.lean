import Mathlib.Data.List.Induction
import Mathlib.Data.List.Infix
import TagQuery.Diagnostic.ParseError
import TagQuery.Proofs.Lines

/-!
# Messages are faithful

A message lists every expected token once and shows the line of the failure with a caret under the
place.

* What a reader sees of an expected token determines it (`Expected.render_injective`): no rule's
  name ends in the name of another, so the rule can be read off from the end, whatever the text of
  the token is.
* The last two lines of a message are the excerpt and the caret (`Message.splitOn_render`), since
  there is no newline in them.
* The caret stands as far to the right as the place does in the excerpt
  (`Message.getElem?_excerpt`): a line number of any length pushes both.
-/

namespace TagQuery

variable {input u v : Text} {n : Nat} {p : Position}

/-! ### What is seen of an expected token -/

/-- The first character of a token tells its kind, and what stands between the quotes its text. -/
theorem Token.render_injective : Function.Injective Token.render := by
  intro x y h
  have hhead : x.render.toList.head? = y.render.toList.head? := by rw [h]
  cases x with
  | literal s =>
    cases y with
    | literal t => simpa [render] using h
    | phrase | endOfInput => simp [render] at hhead
  | phrase s =>
    cases y with
    | phrase t => simpa [render] using h
    | literal | endOfInput => simp [render] at hhead
  | endOfInput =>
    cases y with
    | endOfInput => rfl
    | literal | phrase => simp [render] at hhead

namespace Expected

/-- What stands behind the token. -/
def trailer (rule : Option Rule) : Text :=
  (" from " ++ (Expected.mk rule .endOfInput).origin).toList

theorem toList_render (e : Expected) :
    e.render.toList = e.token.render.toList ++ trailer e.rule := by
  simp [render, trailer, origin]

/-- Nothing that stands behind a token ends in what can stand behind one, except itself. -/
theorem eq_of_trailer_suffix {r r' : Option Rule} (h : trailer r <:+ trailer r') : r = r' := by
  have hall : ∀ r ∈ none :: Rule.all.map some, ∀ r' ∈ none :: Rule.all.map some,
      trailer r <:+ trailer r' → r = r' := by
    decide +kernel
  have hmem : ∀ r : Option Rule, r ∈ none :: Rule.all.map some := by
    rintro (_ | r)
    · exact List.mem_cons_self
    · exact List.mem_cons_of_mem _ (List.mem_map_of_mem r.mem_all)
  exact hall r (hmem r) r' (hmem r') h

/-- **Different tokens look different**, whatever their texts are. -/
theorem render_injective : Function.Injective render := by
  intro e e' h
  have h := congrArg String.toList h
  rw [toList_render, toList_render] at h
  have hrule : e.rule = e'.rule := by
    rcases List.suffix_or_suffix_of_suffix (List.suffix_append ..) ⟨_, h.symm⟩ with hs | hs
    · exact eq_of_trailer_suffix hs
    · exact (eq_of_trailer_suffix hs).symm
  rw [hrule] at h
  have htoken := Token.render_injective (String.toList_inj.1 (List.append_cancel_right h))
  cases e
  cases e'
  cases hrule
  cases htoken
  rfl

end Expected

/-! ### The list of expected tokens -/

namespace Message

/-- The entries are those of `expected`, each of them once, in the order of their first places. -/
structure Lists (listed expected : List Expected) : Prop where
  mem_iff : ∀ e, e ∈ listed ↔ e ∈ expected
  ordered : listed.Pairwise fun e e' => expected.idxOf e < expected.idxOf e'

theorem lists_eraseDups (expected : List Expected) : Lists expected.eraseDups expected := by
  refine ⟨fun e => List.mem_eraseDups, ?_⟩
  induction expected using List.reverseRecOn with
  | nil => exact List.Pairwise.nil
  | append_singleton es e ih =>
    -- the places in `es` are those in the longer list
    have hes : es.eraseDups.Pairwise fun a b => (es ++ [e]).idxOf a < (es ++ [e]).idxOf b := by
      refine ih.imp_of_mem fun ha hb hab => ?_
      rwa [List.idxOf_append_of_mem (List.mem_eraseDups.1 ha),
        List.idxOf_append_of_mem (List.mem_eraseDups.1 hb)]
    by_cases he : e ∈ es
    · rwa [Expected.eraseDups_append_of_mem he]
    · -- a new entry has its first place behind all others
      rw [Expected.eraseDups_append_of_not_mem he]
      refine List.pairwise_append.2 ⟨hes, List.pairwise_singleton _ e, fun a ha b hb => ?_⟩
      obtain rfl := List.mem_singleton.1 hb
      have ha' := List.mem_eraseDups.1 ha
      rw [List.idxOf_append_of_mem ha', List.idxOf_append, if_neg he]
      exact Nat.lt_of_lt_of_le (List.idxOf_lt_length_iff.2 ha') (Nat.le_add_left ..)

/-! ### The lines of a message -/

/-- What the message says before it shows the line. -/
def heading (line : Nat) (expected : List Expected) : Text :=
  ("Line " ++ toString line ++ ": expected one of:\n\n" ++
    String.join (expected.eraseDups.map entryLine)).toList

/-- The line that the message shows for a position. -/
def excerpt (input : Text) (p : Position) : Text :=
  (gutter p.line).toList ++ (LineIndex.ofText input).lineText input (p.line - 1)

/-- The line with the caret under a position. -/
def caret (p : Position) : Text := Text.spaces ((gutter p.line).length + p.column - 1) ++ ['^']

theorem toList_render (hp : (LineIndex.ofText input).position input n = p)
    (expected : List Expected) : (render input n expected).toList =
      heading p.line expected ++ '\n' :: (excerpt input p ++ '\n' :: caret p) := by
  subst hp
  simp [render, heading, excerpt, caret, caretLine]

theorem newline_notMem_toString (n : Nat) : '\n' ∉ (toString n).toList := by
  intro h
  rw [Nat.toString_eq_repr, Nat.toList_repr] at h
  exact absurd (Nat.isDigit_of_mem_toDigits (by decide) (by decide) h) (by decide)

theorem toList_gutter (line : Nat) : (gutter line).toList =
    Text.spaces (6 - (toString line).toList.length) ++ (toString line).toList ++ " | ".toList := by
  rw [gutter, String.toList_append, String.toList_ofList]
  rfl

theorem newline_notMem_spaces (n : Nat) : '\n' ∉ Text.spaces n := by
  intro h
  exact absurd (List.eq_of_mem_replicate h) (by decide)

theorem newline_notMem_gutter (line : Nat) : '\n' ∉ (gutter line).toList := by
  rw [toList_gutter, List.mem_append, List.mem_append]
  rintro ((h | h) | h)
  · exact newline_notMem_spaces _ h
  · exact newline_notMem_toString _ h
  · exact absurd h (by decide)

theorem newline_notMem_excerpt (input : Text) (p : Position) : '\n' ∉ excerpt input p := by
  intro h
  rcases List.mem_append.1 h with h | h
  · exact newline_notMem_gutter _ h
  · exact LineIndex.newline_notMem_lineText _ _ h

theorem newline_notMem_caret (p : Position) : '\n' ∉ caret p := by
  intro h
  rcases List.mem_append.1 h with h | h
  · exact newline_notMem_spaces _ h
  · exact absurd h (by decide)

/-- **The message ends in the excerpt and the caret**, whatever stands in the texts of the
tokens. -/
theorem splitOn_render (hp : (LineIndex.ofText input).position input n = p)
    (expected : List Expected) : (render input n expected).toList.splitOn '\n' =
      (heading p.line expected).splitOn '\n' ++ [excerpt input p, caret p] := by
  rw [toList_render hp, List.splitOn_append_cons_self,
    List.splitOn_append_cons_self_of_not_mem (newline_notMem_excerpt input p),
    List.splitOn_eq_singleton (newline_notMem_caret p)]

/-- **The caret stands under the character at the place**, if that is shown at all. -/
theorem getElem?_excerpt {c : Char} (hinput : input = u ++ c :: v)
    (hp : (LineIndex.ofText input).position input u.size = p) (hc : c ≠ '\n')
    (hreturn : ¬ (c = '\r' ∧ (v = [] ∨ v.head? = some '\n'))) :
    (excerpt input p)[(gutter p.line).length + p.column - 1]? = some c := by
  subst hinput
  obtain ⟨above, line₁, line₂, below, hu, rfl, hline⟩ := Text.exists_hasLine_append_cons u v hc
  -- the line shows the character unless it is the carriage return that is taken away
  have hshown : ¬ (c = '\r' ∧ line₂ = []) := by
    rintro ⟨hc, rfl⟩
    refine hreturn ⟨hc, ?_⟩
    rcases hline.below_cases with rfl | ⟨b, rfl⟩
    · exact Or.inl rfl
    · exact Or.inr rfl
  have hp : p = ⟨u.count '\n' + 1, line₁.length + 1⟩ := by
    have hsize : u.size = above.size + line₁.size := by rw [hu, Text.size_append]
    rw [← hp, hsize, hline.position_eq]
  have hindex : (gutter p.line).length + p.column - 1 =
      (gutter p.line).toList.length + line₁.length := by
    rw [hp, String.length_toList]
    rfl
  rw [hindex, excerpt, List.getElem?_append_right (Nat.le_add_right ..), Nat.add_sub_cancel_left,
    hp, Nat.add_sub_cancel, hline.lineText_eq]
  exact LineIndex.getElem?_trimReturn hshown

end Message

/-- **Messages are faithful, and the caret lines up.**  Different expected tokens look different.
For every text, every offset, also inside a character or past the end, and every list of expected
tokens, a message is made of

* the number of the line,
* each expected token once, in the order of their first places,
* the line behind a gutter, in which the number is aligned to the right in six columns or more,
* spaces and a caret.

There is no newline in the line, so that the excerpt and the caret are the last two lines of the
message.  If the offset is the place of a character that the line shows, that is one other than a
newline and a carriage return at the end of the line, then the caret stands under it. -/
theorem message_faithful :
    (∀ e e' : Expected, e.render = e'.render → e = e') ∧
    ∀ (input : String) (offset : Nat) (expected : List Expected),
      let p := (LineIndex.ofText input.toList).position input.toList offset
      let number := (toString p.line).toList
      let gutter := Text.spaces (6 - number.length) ++ number ++ " | ".toList
      let source := LineIndex.trimReturn ((input.toList.splitOn '\n').getD (p.line - 1) [])
      let caret := gutter.length + p.column - 1
      let message := (Message.render input.toList offset expected).toList
      '\n' ∉ source ∧
      (∃ listed : List Expected, Message.Lists listed expected ∧
        message = "Line ".toList ++ number ++ ": expected one of:\n\n".toList ++
          listed.flatMap (fun e => "    - ".toList ++ e.render.toList ++ ['\n']) ++ ['\n'] ++
          (gutter ++ source) ++ ['\n'] ++ (Text.spaces caret ++ ['^'])) ∧
      (∃ ls, message.splitOn '\n' = ls ++ [gutter ++ source, Text.spaces caret ++ ['^']]) ∧
      ∀ (u v : Text) (c : Char), input.toList = u ++ c :: v → u.size = offset → c ≠ '\n' →
        ¬ (c = '\r' ∧ (v = [] ∨ v.head? = some '\n')) →
        (gutter ++ source)[caret]? = some c := by
  refine ⟨fun e e' h => Expected.render_injective h, fun input offset expected => ?_⟩
  intro p number gutter source caret message
  have hsource : (LineIndex.ofText input.toList).lineText input.toList (p.line - 1) = source :=
    LineIndex.lineText_eq ..
  have hgutter : (Message.gutter p.line).toList = gutter := Message.toList_gutter p.line
  have hexcerpt : Message.excerpt input.toList p = gutter ++ source := by
    rw [Message.excerpt, hgutter, hsource]
  have hindex : (Message.gutter p.line).length + p.column - 1 = caret := by
    rw [← String.length_toList, hgutter]
  have hcaret : Message.caret p = Text.spaces caret ++ ['^'] := by
    rw [Message.caret, hindex]
  refine ⟨?_, ⟨_, Message.lists_eraseDups expected, ?_⟩,
    ⟨(Message.heading p.line expected).splitOn '\n', ?_⟩, ?_⟩
  · rw [← hsource]
    exact LineIndex.newline_notMem_lineText _ _
  · have key := Message.toList_render (p := p) rfl expected
    rw [hexcerpt, hcaret] at key
    have hnewline : "\n".toList = ['\n'] := rfl
    refine key.trans ?_
    simp only [Message.heading, Message.entryLine, String.toList_append, String.toList_join,
      List.flatMap_map, hnewline, number, List.append_assoc, List.cons_append, List.nil_append]
  · have key := Message.splitOn_render (p := p) rfl expected
    rwa [hexcerpt, hcaret] at key
  · rintro u v c hinput rfl hc hreturn
    have key := Message.getElem?_excerpt (p := p) hinput rfl hc hreturn
    rwa [hexcerpt, hindex] at key

/-- The caret under the bar of the second line, which stands behind a character of two bytes and
before a carriage return. -/
theorem message_faithful_accent :
    let input := "a\r\né|\r\n"
    let expected := [Expected.endOfInput, .new .query (.literal " "), .endOfInput]
    let message := (Message.render input.toList 5 expected).toList
    (∃ ls, message.splitOn '\n' = ls ++ ["     2 | é|".toList, Text.spaces 10 ++ ['^']]) ∧
      "     2 | é|".toList[10]? = some '|' := by
  intro input expected message
  have hposition : (LineIndex.ofText input.toList).position input.toList 5 = ⟨2, 2⟩ := by
    decide +kernel
  have hgutter : Text.spaces (6 - (toString 2).toList.length) ++ (toString 2).toList ++
      " | ".toList = "     2 | ".toList := by
    decide +kernel
  have hsource : LineIndex.trimReturn ((input.toList.splitOn '\n').getD (2 - 1) []) =
      "é|".toList := by
    decide +kernel
  obtain ⟨-, -, hlines, hcaret⟩ := message_faithful.2 input 5 expected
  rw [hposition, hgutter, hsource] at hlines hcaret
  exact ⟨hlines, hcaret "a\r\né".toList "\r\n".toList '|' (by decide +kernel) (by decide +kernel)
    (by decide) (by decide)⟩

end TagQuery
