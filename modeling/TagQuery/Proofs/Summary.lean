import Mathlib.Data.List.Induction
import Mathlib.Data.List.Perm.Basic
import TagQuery.Proofs.Failures

/-!
# The furthest failure sums up a history

What is kept of a history of failures is its largest offset and, of the tokens expected there, each
one once, in the order in which they were first recorded (`Furthest.offset_recordAll_empty`,
`Furthest.expected_recordAll_empty`).  Both are said of the history alone, so what does not change
them does not change what is kept: recording a failure again, another order of the failures, and,
for the tokens already kept, more failures that are not further on.
-/

namespace TagQuery

variable {f : Furthest} {n : Nat} {e : Expected} {fs gs : Failures}

namespace Failures

/-- What was expected at the offset `n`, in the order of recording. -/
def expectedAt (fs : Failures) (n : Nat) : List Expected := (fs.filter (·.1 = n)).map Prod.snd

theorem mem_expectedAt : e ∈ expectedAt fs n ↔ (n, e) ∈ fs := by
  simp [expectedAt]

theorem expectedAt_append (fs gs : Failures) (n : Nat) :
    expectedAt (fs ++ gs) n = expectedAt fs n ++ expectedAt gs n := by
  rw [expectedAt, List.filter_append, List.map_append]
  rfl

theorem expectedAt_singleton_self (n : Nat) (e : Expected) : expectedAt [(n, e)] n = [e] := by
  simp [expectedAt]

theorem expectedAt_singleton_of_ne {m : Nat} (h : m ≠ n) (e : Expected) :
    expectedAt [(m, e)] n = [] := by
  simp [expectedAt, h]

end Failures

namespace Furthest

open Failures

theorem offset_recordAll (f : Furthest) (fs : Failures) :
    (f.recordAll fs).offset = (fs.map Prod.fst).foldl max f.offset := by
  induction fs generalizing f with
  | nil => rfl
  | cons x fs ih => rw [recordAll_cons, ih, offset_record, List.map_cons, List.foldl_cons]

/-- **The offset that is kept is the largest one**, or 0 if nothing was recorded. -/
theorem offset_recordAll_empty (fs : Failures) :
    (empty.recordAll fs).offset = (fs.map Prod.fst).max?.getD 0 := by
  rw [offset_recordAll, List.foldl_max]
  exact Nat.zero_max _

theorem le_offset_recordAll {x : Nat × Expected} (hx : x ∈ fs) :
    x.1 ≤ (empty.recordAll fs).offset := by
  rw [offset_recordAll_empty]
  exact List.le_max?_getD_of_mem (List.mem_map_of_mem hx)

theorem expected_record_self {as : List Expected} (h : f.expected = as.eraseDups) (e : Expected) :
    (f.record f.offset e).expected = (as ++ [e]).eraseDups := by
  have hmem : e ∈ f.expected ↔ e ∈ as := by rw [h, List.mem_eraseDups]
  -- `eraseDups` keeps first places, which is where a set that keeps its order has an element
  by_cases he : e ∈ as
  · rw [record_of_mem (hmem.2 he), h, Expected.eraseDups_append_of_mem he]
  · rw [record_of_not_mem (mt hmem.1 he), h, Expected.eraseDups_append_of_not_mem he]

/-- **The tokens that are kept are those expected at the largest offset**, each of them once, in
the order in which they were first recorded. -/
theorem expected_recordAll_empty (fs : Failures) : (empty.recordAll fs).expected =
    (expectedAt fs (empty.recordAll fs).offset).eraseDups := by
  induction fs using List.reverseRecOn with
  | nil => rfl
  | append_singleton fs x ih =>
    obtain ⟨n, e⟩ := x
    rw [recordAll_append, recordAll_cons, recordAll_nil, expectedAt_append]
    generalize hf : empty.recordAll fs = f at ih ⊢
    rcases Nat.lt_trichotomy n f.offset with hlt | rfl | hgt
    · rw [record_of_gt e hlt, expectedAt_singleton_of_ne (Nat.ne_of_lt hlt), List.append_nil, ih]
    · rw [expected_record_self ih, offset_record, Nat.max_self, expectedAt_singleton_self]
    · -- nothing has been expected that far on
      have hnone : expectedAt fs n = [] := by
        refine List.eq_nil_iff_forall_not_mem.2 fun e' he' => ?_
        have hle := le_offset_recordAll (mem_expectedAt.1 he')
        rw [hf] at hle
        exact Nat.not_lt.2 hle hgt
      rw [record_of_lt e hgt, hnone, expectedAt_singleton_self]
      rfl

theorem exists_mem_offset_recordAll (h : fs ≠ []) :
    ∃ e, ((empty.recordAll fs).offset, e) ∈ fs := by
  obtain ⟨m, hm⟩ : ∃ m, (fs.map Prod.fst).max? = some m := by
    refine Option.ne_none_iff_exists'.1 fun hnone => h ?_
    exact List.map_eq_nil_iff.1 (List.max?_eq_none_iff.1 hnone)
  obtain ⟨⟨n, e⟩, hx, rfl⟩ := List.mem_map.1 (List.max?_mem hm)
  rw [offset_recordAll_empty, hm]
  exact ⟨e, hx⟩

/-- **Nothing is kept exactly if nothing was recorded.** -/
theorem isEmpty_recordAll_iff (fs : Failures) : (empty.recordAll fs).isEmpty ↔ fs = [] := by
  constructor
  · intro h
    by_contra hne
    obtain ⟨e, he⟩ := exists_mem_offset_recordAll hne
    rw [isEmpty, List.isEmpty_iff, expected_recordAll_empty] at h
    have hmem := List.mem_eraseDups.2 (mem_expectedAt.2 he)
    rw [h] at hmem
    cases hmem
  · rintro rfl
    rfl

theorem nodup_recordAll (h : f.expected.Nodup) (fs : Failures) :
    (f.recordAll fs).expected.Nodup := by
  induction fs generalizing f with
  | nil => exact h
  | cons x fs ih => exact ih (nodup_record h x.1 x.2)

/-- **Recording again changes nothing**, at any later time. -/
theorem record_recordAll {x : Nat × Expected} (hx : x ∈ fs) (gs : Failures) :
    ((empty.recordAll (fs ++ gs)).record x.1 x.2) = empty.recordAll (fs ++ gs) :=
  record_eq_self_iff.2 (covers_recordAll empty (fs ++ gs) x (List.mem_append_left gs hx))

/-- **The order of the failures does not matter** for what is kept, only for its order. -/
theorem recordAll_perm (h : fs.Perm gs) :
    (empty.recordAll fs).offset = (empty.recordAll gs).offset ∧
      (empty.recordAll fs).expected.Perm (empty.recordAll gs).expected := by
  have hoffset : (empty.recordAll fs).offset = (empty.recordAll gs).offset := by
    rw [offset_recordAll, offset_recordAll]
    exact (h.map Prod.fst).foldl_eq _
  refine ⟨hoffset, ?_⟩
  have hnodup : ∀ fs, (empty.recordAll fs).expected.Nodup := nodup_recordAll List.nodup_nil
  refine (List.perm_ext_iff_of_nodup (hnodup fs) (hnodup gs)).2 fun e => ?_
  rw [expected_recordAll_empty, expected_recordAll_empty, List.mem_eraseDups, List.mem_eraseDups,
    mem_expectedAt, mem_expectedAt, hoffset, h.mem_iff]

/-- **While the offset stays, what is expected only grows at its end.** -/
theorem expected_prefix_recordAll_append
    (h : (empty.recordAll (fs ++ gs)).offset = (empty.recordAll fs).offset) :
    (empty.recordAll fs).expected <+: (empty.recordAll (fs ++ gs)).expected := by
  rw [expected_recordAll_empty, expected_recordAll_empty, h, expectedAt_append,
    List.eraseDups_append]
  exact List.prefix_append ..

end Furthest

/-- **The furthest failure sums up its history.**  After any failures, recorded one after the other,

* the offset that is kept is the largest of theirs, or 0 if there were none;
* what is expected are the tokens recorded at that offset, each of them once, in the order in which
  they were first recorded, and nothing is expected only if nothing was recorded;
* recording one of the failures again changes nothing, however many others came in between;
* the failures in another order leave the same offset and the same tokens;
* if more failures leave the offset as it is, the tokens kept before are a prefix of those kept
  then. -/
theorem history_summed_up (fs : Failures) :
    (Furthest.empty.recordAll fs).offset = (fs.map Prod.fst).max?.getD 0 ∧
    (Furthest.empty.recordAll fs).expected =
      ((fs.filter (·.1 = (Furthest.empty.recordAll fs).offset)).map Prod.snd).eraseDups ∧
    (Furthest.empty.recordAll fs).expected.Nodup ∧
    ((Furthest.empty.recordAll fs).isEmpty ↔ fs = []) ∧
    (∀ x ∈ fs, ∀ gs : Failures,
      (Furthest.empty.recordAll (fs ++ gs)).record x.1 x.2 = Furthest.empty.recordAll (fs ++ gs)) ∧
    (∀ gs, fs.Perm gs →
      (Furthest.empty.recordAll fs).offset = (Furthest.empty.recordAll gs).offset ∧
      (Furthest.empty.recordAll fs).expected.Perm (Furthest.empty.recordAll gs).expected) ∧
    (∀ gs, (Furthest.empty.recordAll (fs ++ gs)).offset = (Furthest.empty.recordAll fs).offset →
      (Furthest.empty.recordAll fs).expected <+:
        (Furthest.empty.recordAll (fs ++ gs)).expected) :=
  ⟨Furthest.offset_recordAll_empty fs, Furthest.expected_recordAll_empty fs,
    Furthest.nodup_recordAll List.nodup_nil fs, Furthest.isEmpty_recordAll_iff fs,
    fun _ hx gs => Furthest.record_recordAll hx gs, fun _ h => Furthest.recordAll_perm h,
    fun _ h => Furthest.expected_prefix_recordAll_append h⟩

/-- A space expected at 4 is recorded twice at the place furthest on, with an operator expected at
2 before it and a sign at 4 after it. -/
theorem history_summed_up_again :
    let bar : Nat × Expected := (2, .new .binaryOp (.literal "|"))
    let space : Nat × Expected := (4, .new .query (.literal " "))
    let sign : Nat × Expected := (4, .new .negation (.literal "-"))
    let before : Failures := [bar, space]
    (Furthest.empty.recordAll (before ++ [sign])).record space.1 space.2 =
        Furthest.empty.recordAll (before ++ [sign]) ∧
      (Furthest.empty.recordAll before).offset = (Furthest.empty.recordAll [space, bar]).offset ∧
      (Furthest.empty.recordAll before).expected <+:
        (Furthest.empty.recordAll (before ++ [sign])).expected := by
  intro bar space sign before
  obtain ⟨-, -, -, -, hagain, hperm, hprefix⟩ := history_summed_up before
  exact ⟨hagain space (by decide) [sign], (hperm [space, bar] (List.Perm.swap ..)).1,
    hprefix [sign] (by decide)⟩

end TagQuery
