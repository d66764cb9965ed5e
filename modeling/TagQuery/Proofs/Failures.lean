import TagQuery.Diagnostic.Furthest

/-!
# Histories of failures

`Furthest.recordAll` records a list of failures one after the other.  Two questions about it matter
to a parser:

* when does it change nothing?  `Furthest.Covers` says of each failure that it is further back than
  what is kept, or kept already; `Furthest.covers_iff` says that this is the answer, and
  `Furthest.Covers.record` that it stays so;
* what is left of a history whose end is further on than all that came before?  Exactly its end
  (`Furthest.recordAll_at`).
-/

namespace TagQuery

/-- Failures in the order in which they were met: where a token was missing, and which one. -/
abbrev Failures := List (Nat × Expected)

namespace Furthest

variable {f : Furthest} {n m : Nat} {e : Expected} {fs gs : Failures}

/-- Record one failure after the other. -/
def recordAll (f : Furthest) (fs : Failures) : Furthest :=
  fs.foldl (fun f x => f.record x.1 x.2) f

@[simp] theorem recordAll_nil (f : Furthest) : f.recordAll [] = f := rfl

@[simp] theorem recordAll_cons (f : Furthest) (x : Nat × Expected) (fs : Failures) :
    f.recordAll (x :: fs) = (f.record x.1 x.2).recordAll fs := rfl

@[simp] theorem recordAll_append (f : Furthest) (fs gs : Failures) :
    f.recordAll (fs ++ gs) = (f.recordAll fs).recordAll gs := List.foldl_append

/-- Each of the failures is further back than what is kept, or kept already. -/
def Covers (f : Furthest) (fs : Failures) : Prop :=
  ∀ x ∈ fs, x.1 < f.offset ∨ x.1 = f.offset ∧ x.2 ∈ f.expected

theorem mem_expected_record (h : f.offset ≤ n) (e : Expected) : e ∈ (f.record n e).expected := by
  rcases Nat.lt_or_eq_of_le h with hn | rfl
  · rw [record_of_lt e hn]
    exact List.mem_singleton_self e
  · by_cases he : e ∈ f.expected
    · rw [record_of_mem he]
      exact he
    · rw [record_of_not_mem he]
      exact List.mem_append_right _ (List.mem_singleton_self e)

theorem expected_subset_record (e : Expected) : f.expected ⊆ (f.record f.offset e).expected := by
  intro x hx
  by_cases he : e ∈ f.expected
  · rwa [record_of_mem he]
  · rw [record_of_not_mem he]
    exact List.mem_append_left _ hx

theorem record_eq_self_iff :
    f.record n e = f ↔ n < f.offset ∨ n = f.offset ∧ e ∈ f.expected := by
  constructor
  · intro h
    have hn : max f.offset n = f.offset := by rw [← offset_record f n e, h]
    rcases Nat.lt_or_ge n f.offset with hlt | hge
    · exact Or.inl hlt
    · refine Or.inr ⟨by omega, ?_⟩
      have := mem_expected_record hge e
      rwa [h] at this
  · rintro (hlt | ⟨rfl, he⟩)
    · exact record_of_gt e hlt
    · exact record_of_mem he

@[simp] theorem covers_nil (f : Furthest) : f.Covers [] := by simp [Covers]

theorem covers_append : f.Covers (fs ++ gs) ↔ f.Covers fs ∧ f.Covers gs := List.forall_mem_append

theorem Covers.record (h : f.Covers fs) (n : Nat) (e : Expected) : (f.record n e).Covers fs := by
  intro x hx
  rw [offset_record]
  rcases h x hx with hlt | ⟨heq, hmem⟩
  · exact Or.inl (by omega)
  · rcases Nat.lt_trichotomy n f.offset with hn | rfl | hn
    · rw [record_of_gt e hn]
      exact Or.inr ⟨by omega, hmem⟩
    · exact Or.inr ⟨by omega, expected_subset_record e hmem⟩
    · exact Or.inl (by omega)

theorem Covers.recordAll (h : f.Covers fs) (gs : Failures) : (f.recordAll gs).Covers fs := by
  induction gs generalizing f with
  | nil => exact h
  | cons x gs ih => exact ih (h.record x.1 x.2)

theorem covers_recordAll (f : Furthest) (fs : Failures) : (f.recordAll fs).Covers fs := by
  induction fs generalizing f with
  | nil => exact covers_nil f
  | cons x fs ih =>
    have hx : (f.record x.1 x.2).Covers [x] := by
      intro y hy
      obtain rfl := List.mem_singleton.1 hy
      rw [offset_record]
      rcases Nat.lt_or_ge y.1 f.offset with hlt | hge
      · exact Or.inl (by omega)
      · exact Or.inr ⟨by omega, mem_expected_record hge y.2⟩
    have := covers_append.2 ⟨hx.recordAll fs, ih (f.record x.1 x.2)⟩
    exact this

/-- **Recording again is no change** exactly for the failures that are covered. -/
theorem covers_iff : f.Covers fs ↔ f.recordAll fs = f := by
  constructor
  · intro h
    induction fs with
    | nil => rfl
    | cons x fs ih =>
      have hx : f.record x.1 x.2 = f := record_eq_self_iff.2 (h x List.mem_cons_self)
      rw [recordAll_cons, hx]
      exact ih fun y hy => h y (List.mem_cons_of_mem x hy)
  · intro h
    rw [← h]
    exact covers_recordAll f fs

/-- Failures before `m` leave the furthest one before `m`. -/
theorem offset_recordAll_lt (hf : f.offset < m) (h : ∀ x ∈ fs, x.1 < m) :
    (f.recordAll fs).offset < m := by
  induction fs generalizing f with
  | nil => exact hf
  | cons x fs ih =>
    have hx := h x List.mem_cons_self
    refine ih ?_ fun y hy => h y (List.mem_cons_of_mem x hy)
    rw [offset_record]
    omega

theorem recordAll_same {as es : List Expected} (h : (as ++ es).Nodup) :
    (⟨m, as⟩ : Furthest).recordAll (es.map fun e => (m, e)) = ⟨m, as ++ es⟩ := by
  induction es generalizing as with
  | nil => simp
  | cons e es ih =>
    have he : e ∉ as := fun hmem =>
      (List.nodup_append.1 h).2.2 e hmem e List.mem_cons_self rfl
    rw [List.map_cons, recordAll_cons]
    have := record_of_not_mem (f := ⟨m, as⟩) he
    simp only at this
    rw [this, ih (by simpa using h), List.append_assoc, List.singleton_append]

/-- **The last place wins.**  Failures at one place, further on than all that came before, are what
is left: all of them, in order. -/
theorem recordAll_at {es : List Expected} (hf : f.offset ≤ m) (he : f.offset = m → f.expected = [])
    (hne : es ≠ []) (hnd : es.Nodup) : f.recordAll (es.map fun e => (m, e)) = ⟨m, es⟩ := by
  cases es with
  | nil => exact absurd rfl hne
  | cons e es =>
    have h₁ : f.record m e = ⟨m, [e]⟩ := by
      rcases Nat.lt_or_eq_of_le hf with hlt | rfl
      · exact record_of_lt e hlt
      · rw [record_of_not_mem (by rw [he rfl]; exact List.not_mem_nil), he rfl, List.nil_append]
    rw [List.map_cons, recordAll_cons, h₁]
    exact recordAll_same hnd

end Furthest

end TagQuery
