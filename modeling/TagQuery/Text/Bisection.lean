/-!
# Bisection

A number is looked up in an increasing list by halving the part of the list in which it can be.
`Search.bisect` answers with the place of the number, or with the place at which it would have to be
put (`Search.bisect_fits`).
-/

namespace TagQuery

/-- What is known of a number after looking it up in an increasing list. -/
inductive Search where
  /-- It is the number at `i`. -/
  | found (i : Nat)
  /-- It is not in the list, and would have to be put at `i`. -/
  | absent (i : Nat)
deriving DecidableEq, Repr

namespace Search

/-- Halve the `size` numbers from `base` on until one of them is left, and keep the half with the
last number that is not beyond `x`. -/
def narrow (xs : List Nat) (x : Nat) (base : Fin xs.length) (size : Nat)
    (h : base + size ≤ xs.length) : Fin xs.length :=
  if hsize : size ≤ 1 then base
  else
    have hmid : base + size / 2 < xs.length := by omega
    if x < xs[base + size / 2] then narrow xs x base (size - size / 2) (by omega)
    else narrow xs x ⟨base + size / 2, hmid⟩ (size - size / 2) (by simp only; omega)
termination_by size

/-- The answer if nothing behind the place `i` can be `x`, and nothing before it. -/
def atPlace (xs : List Nat) (x : Nat) (i : Fin xs.length) : Search :=
  if xs[i] = x then found i
  else if xs[i] < x then absent (i + 1)
  else absent i

/-- Look up `x` in the increasing list `xs`. -/
def bisect (xs : List Nat) (x : Nat) : Search :=
  if h : 0 < xs.length then
    atPlace xs x (narrow xs x ⟨0, h⟩ xs.length (Nat.le_of_eq (Nat.zero_add _)))
  else absent 0

/-- The answer is right: the number is at its place, or all numbers before the place for it are
smaller and all from there on larger. -/
def Fits (xs : List Nat) (x : Nat) : Search → Prop
  | found i => xs[i]? = some x
  | absent i => i ≤ xs.length ∧ (∀ a ∈ xs.take i, a < x) ∧ ∀ a ∈ xs.drop i, x < a

variable {xs : List Nat} {x size : Nat} {base i : Fin xs.length}

theorem getElem_le_getElem {i j : Nat} (hxs : xs.Pairwise (· < ·)) (hj : j < xs.length)
    (hij : i ≤ j) : xs[i] ≤ xs[j] := by
  rcases Nat.lt_or_eq_of_le hij with hlt | rfl
  · exact Nat.le_of_lt (List.pairwise_iff_getElem.1 hxs i j _ hj hlt)
  · exact Nat.le_refl _

/-- What is left is not beyond `x`, unless the part began with it, and all numbers behind it in the
part are. -/
theorem narrow_spec (hxs : xs.Pairwise (· < ·)) (h : base + size ≤ xs.length)
    (hi : narrow xs x base size h = i) :
    (i = base ∨ xs[i] ≤ x) ∧ ∀ j (hj : j < xs.length), i < j → j < base + size → x < xs[j] := by
  induction size using Nat.strongRecOn generalizing base with
  | ind size ih =>
    rw [narrow] at hi
    split at hi
    · subst hi
      exact ⟨Or.inl rfl, fun j hj hij hjs => by omega⟩
    · rename_i hsize
      have hmid : base + size / 2 < xs.length := by omega
      simp only at hi
      split at hi
      · -- the search goes on in the first half
        rename_i hlt
        obtain ⟨hle, hbehind⟩ := ih _ (by omega) _ hi
        refine ⟨hle, fun j hj hij hjs => ?_⟩
        rcases Nat.lt_or_ge j (base + (size - size / 2)) with hjm | hjm
        · exact hbehind j hj hij hjm
        · -- the other half begins with a number beyond `x`
          exact Nat.lt_of_lt_of_le hlt (getElem_le_getElem hxs hj (by omega))
      · -- it goes on in the second half, which begins with a number up to `x`
        rename_i hge
        obtain ⟨hle, hbehind⟩ := ih _ (by omega) _ hi
        refine ⟨Or.inr ?_, fun j hj hij hjs => hbehind j hj hij (by simp only; omega)⟩
        rcases hle with rfl | hle
        · exact Nat.not_lt.1 hge
        · exact hle

theorem atPlace_fits (hxs : xs.Pairwise (· < ·)) (hle : i.val = 0 ∨ xs[i] ≤ x)
    (hbehind : ∀ j (hj : j < xs.length), i < j → x < xs[j]) : (atPlace xs x i).Fits xs x := by
  unfold atPlace
  split
  · rename_i heq
    exact List.getElem?_eq_some_iff.2 ⟨i.isLt, heq⟩
  · rename_i hne
    split
    · rename_i hsmall
      refine ⟨i.isLt, fun a ha => ?_, fun a ha => ?_⟩
      · obtain ⟨j, hj, rfl⟩ := List.mem_take_iff_getElem.1 ha
        exact Nat.lt_of_le_of_lt (getElem_le_getElem hxs i.isLt (by omega)) hsmall
      · obtain ⟨j, hj, rfl⟩ := List.mem_drop_iff_getElem.1 ha
        exact hbehind _ _ (by omega)
    · rename_i hsmall
      -- beyond `x` is the number at `i` only if the search never left the start
      have hlarge : x < xs[i] := by omega
      have hzero : i.val = 0 := hle.resolve_right (by omega)
      refine ⟨Nat.le_of_lt i.isLt, fun a ha => ?_, fun a ha => ?_⟩
      · rw [hzero, List.take_zero] at ha
        cases ha
      · obtain ⟨j, hj, rfl⟩ := List.mem_drop_iff_getElem.1 ha
        rcases Nat.eq_zero_or_pos j with rfl | hj₀
        · exact hlarge
        · exact hbehind _ _ (by omega)

/-- **The answer of a bisection is right.** -/
theorem bisect_fits (hxs : xs.Pairwise (· < ·)) (x : Nat) : (bisect xs x).Fits xs x := by
  unfold bisect
  split
  · rename_i h
    have hall : 0 + xs.length ≤ xs.length := Nat.le_of_eq (Nat.zero_add _)
    obtain ⟨hle, hbehind⟩ := narrow_spec hxs hall (rfl : narrow xs x ⟨0, h⟩ xs.length hall = _)
    refine atPlace_fits hxs ?_ fun j hj hij => hbehind j hj hij (by simpa using hj)
    exact hle.imp_left fun h => congrArg Fin.val h
  · rename_i h
    obtain rfl : xs = [] := List.length_eq_zero_iff.1 (Nat.eq_zero_of_not_pos h)
    exact ⟨Nat.le_refl 0, fun a ha => absurd ha List.not_mem_nil,
      fun a ha => absurd ha List.not_mem_nil⟩

end Search

end TagQuery
