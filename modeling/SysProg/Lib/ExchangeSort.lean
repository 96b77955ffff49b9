/-
  File:      SysProg/Lib/ExchangeSort.lean
  Subject:   THE IN-PLACE EXCHANGE SORT (two nested index loops with a
             compare-and-swap), over an arbitrary element type.

  The inner loop keeps in cell `i` the smallest element met so far and drops
  the element it replaces where the smaller one came from. The sort is not
  stable, but it never moves an element over an equal one INTO cell `i`: the
  first cell ends with the first of the smallest elements.

  * `innerLoop_eq` -- one run of the inner loop is `pass`, the recursive
    reading of it;
  * `exchangeSort_cons`, `pass_induction` -- so the sort can be read
    recursively, and by induction along its passes;
  * `exchangeSort_perm`, `exchangeSort_sorted` -- the result is a permutation,
    and sorted;
  * `pass_least`, `pass_first` -- what `pass` picks is a least element, and
    every element before it in the input is strictly greater;
  * `exchangeSort_first` -- so is the first cell of the result.
-/
import Mathlib.Data.List.Basic
import Mathlib.Data.List.Perm.Basic

namespace SysProg.Lib

variable {α : Type*}

/-! ## 1. The loops -/

/-- `if (a[i] > a[j]) swap(a[i], a[j])`. -/
def compareSwap (gt : α → α → Bool) (i j : Nat) (a : List α) : List α :=
  match a[i]?, a[j]? with
  | some x, some y => if gt x y then (a.set i y).set j x else a
  | _, _ => a

/-- The inner loop: `n` rounds of `compareSwap` of cell `i` with cells `j`, `j + 1`, … -/
def innerLoop (gt : α → α → Bool) (i : Nat) : Nat → Nat → List α → List α
  | 0, _, a => a
  | n + 1, j, a => innerLoop gt i n (j + 1) (compareSwap gt i j a)

/-- The outer loop: `n` rounds from cell `i` on; the inner loop starts at `j = i`. -/
def outerLoop (gt : α → α → Bool) : Nat → Nat → List α → List α
  | 0, _, a => a
  | n + 1, i, a => outerLoop gt n (i + 1) (innerLoop gt i (a.length - i) i a)

/-- The exchange sort of an array, in the order in which `gt` never holds from left to right. -/
def exchangeSort (gt : α → α → Bool) (a : List α) : List α := outerLoop gt a.length 0 a

/-! ## 2. One pass of the inner loop, read recursively -/

/-- The inner loop with `x` in cell `i` and the cells still to visit: what ends in cell `i`,
    and what ends in the visited cells. -/
def pass (gt : α → α → Bool) : α → List α → α × List α
  | x, [] => (x, [])
  | x, y :: ys =>
      if gt x y then ((pass gt y ys).1, x :: (pass gt y ys).2)
      else ((pass gt x ys).1, y :: (pass gt x ys).2)

variable (gt : α → α → Bool)

theorem compareSwap_self (i : Nat) (a : List α) : compareSwap gt i i a = a := by
  unfold compareSwap
  split
  · rename_i x y hx hy
    rw [hx] at hy
    cases hy
    have hi : i < a.length := (List.getElem?_eq_some_iff.mp hx).1
    have e : a[i] = x := (List.getElem?_eq_some_iff.mp hx).2
    split
    · rw [List.set_set, ← e, List.set_getElem_self]
    · rfl
  · rfl

theorem compareSwap_append (pre mid ys : List α) (x y : α) :
    compareSwap gt pre.length (pre.length + 1 + mid.length) (pre ++ x :: (mid ++ y :: ys)) =
      if gt x y then pre ++ y :: (mid ++ x :: ys) else pre ++ x :: (mid ++ y :: ys) := by
  have hi : (pre ++ x :: (mid ++ y :: ys))[pre.length]? = some x := by simp
  have hj : (pre ++ x :: (mid ++ y :: ys))[pre.length + 1 + mid.length]? = some y := by
    rw [List.getElem?_append_right (by omega)]
    have e : pre.length + 1 + mid.length - pre.length = mid.length + 1 := by omega
    simp [e]
  have e : pre.length + 1 + mid.length - pre.length = mid.length + 1 := by omega
  have hset : ((pre ++ x :: (mid ++ y :: ys)).set pre.length y).set (pre.length + 1 + mid.length) x =
      pre ++ y :: (mid ++ x :: ys) := by
    rw [List.set_append_right _ _ (Nat.le_refl _), Nat.sub_self, List.set_cons_zero,
      List.set_append_right _ _ (by omega), e, List.set_cons_succ,
      List.set_append_right _ _ (Nat.le_refl _), Nat.sub_self, List.set_cons_zero]
  unfold compareSwap
  rw [hi, hj]
  simp only [hset]

/-- **One run of the inner loop is one `pass`**; `mid` are the cells already visited. -/
theorem innerLoop_eq (pre : List α) : ∀ (rest mid : List α) (x : α),
    innerLoop gt pre.length rest.length (pre.length + 1 + mid.length) (pre ++ x :: (mid ++ rest)) =
      pre ++ (pass gt x rest).1 :: (mid ++ (pass gt x rest).2)
  | [], mid, x => by simp [innerLoop, pass]
  | y :: ys, mid, x => by
      rw [List.length_cons, innerLoop, compareSwap_append]
      have hj : ∀ z : α, pre.length + 1 + mid.length + 1 = pre.length + 1 + (mid ++ [z]).length := by
        intro z
        simp only [List.length_append, List.length_cons, List.length_nil]
        omega
      by_cases h : gt x y = true
      · rw [if_pos h, hj x, List.append_cons mid x ys, innerLoop_eq pre ys (mid ++ [x]) y]
        simp [pass, h]
      · rw [if_neg h, hj y, List.append_cons mid y ys, innerLoop_eq pre ys (mid ++ [y]) x]
        simp [pass, h]

theorem pass_length (x : α) (ys : List α) : (pass gt x ys).2.length = ys.length := by
  induction ys generalizing x with
  | nil => rfl
  | cons y ys ih =>
      unfold pass
      split <;> simp [ih]

theorem pass_perm (x : α) (ys : List α) :
    ((pass gt x ys).1 :: (pass gt x ys).2).Perm (x :: ys) := by
  induction ys generalizing x with
  | nil => exact List.Perm.refl _
  | cons y ys ih =>
      unfold pass
      split
      · exact (List.Perm.swap _ _ _).trans ((ih y).cons x)
      · exact ((List.Perm.swap _ _ _).trans ((ih x).cons y)).trans (List.Perm.swap _ _ _)

/-- One round of the outer loop on the cells from `i` on. -/
theorem innerLoop_round (pre : List α) (x : α) (xs : List α) :
    innerLoop gt pre.length ((pre ++ x :: xs).length - pre.length) pre.length (pre ++ x :: xs) =
      (pre ++ [(pass gt x xs).1]) ++ (pass gt x xs).2 := by
  have e : (pre ++ x :: xs).length - pre.length = xs.length + 1 := by
    simp only [List.length_append, List.length_cons]
    omega
  rw [e, innerLoop, compareSwap_self]
  have h := innerLoop_eq gt pre xs [] x
  simp only [List.length_nil, Nat.add_zero, List.nil_append] at h
  rw [h]
  simp

/-! ## 3. The whole sort -/

/-- The outer loop keeps the cells it has finished and sorts the others. -/
theorem outerLoop_append (n : Nat) : ∀ (pre l : List α), l.length = n →
    outerLoop gt n pre.length (pre ++ l) = pre ++ exchangeSort gt l := by
  induction n with
  | zero =>
      intro pre l hl
      rw [List.length_eq_zero_iff.mp hl]
      rfl
  | succ n ih =>
      intro pre l hl
      cases l with
      | nil => cases hl
      | cons x xs =>
          have hlen : (pass gt x xs).2.length = n := by
            rw [pass_length]
            simpa using hl
          have hround : ∀ pre : List α, outerLoop gt (n + 1) pre.length (pre ++ x :: xs) =
              pre ++ (pass gt x xs).1 :: exchangeSort gt (pass gt x xs).2 := by
            intro pre
            have h := ih (pre ++ [(pass gt x xs).1]) (pass gt x xs).2 hlen
            rw [List.length_append, List.length_singleton, List.append_assoc pre] at h
            rw [outerLoop, innerLoop_round, List.append_assoc]
            exact h.trans (by simp)
          have hsort : exchangeSort gt (x :: xs) =
              (pass gt x xs).1 :: exchangeSort gt (pass gt x xs).2 := by
            unfold exchangeSort
            rw [hl]
            exact hround []
          rw [hround pre, hsort]

/-- **The sort, read recursively**: the pick of the first pass, then the rest sorted. -/
theorem exchangeSort_cons (x : α) (xs : List α) :
    exchangeSort gt (x :: xs) = (pass gt x xs).1 :: exchangeSort gt (pass gt x xs).2 := by
  have h := innerLoop_round gt [] x xs
  simp only [List.length_nil, List.nil_append, Nat.sub_zero] at h
  have hrest := outerLoop_append gt xs.length [(pass gt x xs).1] (pass gt x xs).2 (pass_length gt x xs)
  unfold exchangeSort
  rw [List.length_cons, outerLoop, Nat.sub_zero, h]
  exact hrest

/-- Induction along the passes: what holds of what a pass leaves holds of the list. -/
theorem pass_induction {P : List α → Prop} (nil : P [])
    (cons : ∀ x xs, P (pass gt x xs).2 → P (x :: xs)) (l : List α) : P l := by
  induction hn : l.length generalizing l with
  | zero =>
      rw [List.length_eq_zero_iff.mp hn]
      exact nil
  | succ n ih =>
      cases l with
      | nil => cases hn
      | cons x xs =>
          refine cons x xs (ih _ ?_)
          rw [pass_length]
          simpa using hn

/-- **The exchange sort permutes its input.** -/
theorem exchangeSort_perm (l : List α) : (exchangeSort gt l).Perm l := by
  induction l using pass_induction gt with
  | nil => exact List.Perm.refl _
  | cons x xs ih =>
      rw [exchangeSort_cons]
      exact (ih.cons _).trans (pass_perm gt x xs)

/-! ## 4. What a pass picks -/

/-- What a comparison must meet for the sort to pick a first least element. -/
structure StrictWeak (gt : α → α → Bool) : Prop where
  irrefl : ∀ x, gt x x = false
  trans : ∀ x y z, gt x y = true → gt y z = true → gt x z = true
  split : ∀ x y z, gt x z = true → gt x y = true ∨ gt y z = true

variable {gt}

/-- **The pick is a least element.** -/
theorem pass_least (hgt : StrictWeak gt) (x : α) (ys : List α) :
    ∀ z ∈ x :: ys, gt (pass gt x ys).1 z = false := by
  induction ys generalizing x with
  | nil =>
      intro z hz
      rw [List.mem_singleton.mp hz]
      exact hgt.irrefl x
  | cons y ys ih =>
      intro z hz
      unfold pass
      by_cases h : gt x y = true
      · rw [if_pos h]
        rcases List.mem_cons.mp hz with rfl | hz
        · refine Bool.eq_false_iff.mpr fun hm => ?_
          have := ih y y List.mem_cons_self
          rw [hgt.trans _ _ _ hm h] at this
          cases this
        · exact ih y z hz
      · rw [if_neg h]
        rcases List.mem_cons.mp hz with rfl | hz
        · exact ih z z List.mem_cons_self
        · rcases List.mem_cons.mp hz with rfl | hz
          · refine Bool.eq_false_iff.mpr fun hm => ?_
            rcases hgt.split _ x _ hm with h' | h'
            · rw [ih x x List.mem_cons_self] at h'
              cases h'
            · exact h h'
          · exact ih x z (List.mem_cons_of_mem _ hz)

/-- **Everything before the pick is strictly greater than it.** -/
theorem pass_first (hgt : StrictWeak gt) (x : α) (ys : List α) :
    ∃ l₁ l₂, x :: ys = l₁ ++ (pass gt x ys).1 :: l₂ ∧ ∀ z ∈ l₁, gt z (pass gt x ys).1 = true := by
  induction ys generalizing x with
  | nil => exact ⟨[], [], rfl, fun z hz => absurd hz List.not_mem_nil⟩
  | cons y ys ih =>
      unfold pass
      by_cases h : gt x y = true
      · rw [if_pos h]
        obtain ⟨l₁, l₂, e, hl⟩ := ih y
        refine ⟨x :: l₁, l₂, by rw [e]; rfl, fun z hz => ?_⟩
        rcases List.mem_cons.mp hz with rfl | hz
        · cases l₁ with
          | nil =>
              have hy : y = (pass gt y ys).1 := (List.cons.inj e).1
              rw [← hy]
              exact h
          | cons w l₁ =>
              have hy : y = w := (List.cons.inj e).1
              exact hgt.trans _ _ _ h (hl y (by rw [hy]; exact List.mem_cons_self))
        · exact hl z hz
      · rw [if_neg h]
        obtain ⟨l₁, l₂, e, hl⟩ := ih x
        cases l₁ with
        | nil =>
            have hx : x = (pass gt x ys).1 := (List.cons.inj e).1
            exact ⟨[], y :: ys, by rw [← hx]; rfl, fun z hz => absurd hz List.not_mem_nil⟩
        | cons w l₁ =>
            obtain ⟨rfl, e'⟩ := List.cons.inj e
            have e'' : x :: y :: ys = x :: y :: l₁ ++ (pass gt x ys).1 :: l₂ :=
              congrArg (fun l => x :: y :: l) e'
            refine ⟨x :: y :: l₁, l₂, e'', fun z hz => ?_⟩
            have hx := hl x List.mem_cons_self
            rcases List.mem_cons.mp hz with rfl | hz
            · exact hx
            · rcases List.mem_cons.mp hz with rfl | hz
              · exact (hgt.split _ z _ hx).resolve_left h
              · exact hl z (List.mem_cons_of_mem _ hz)

/-- **The array is sorted.** -/
theorem exchangeSort_sorted (hgt : StrictWeak gt) (l : List α) :
    (exchangeSort gt l).Pairwise fun x y => gt x y = false := by
  induction l using pass_induction gt with
  | nil => exact List.Pairwise.nil
  | cons x xs ih =>
      rw [exchangeSort_cons]
      refine List.Pairwise.cons (fun y hy => pass_least hgt x xs y ?_) ih
      have hmem := (exchangeSort_perm gt _).mem_iff.mp hy
      exact (pass_perm gt x xs).mem_iff.mp (List.mem_cons_of_mem _ hmem)

/-- **The first cell is the first of the least elements**, whatever the sort does to the others. -/
theorem exchangeSort_first (hgt : StrictWeak gt) {l l' : List α} {c : α}
    (h : exchangeSort gt l = c :: l') :
    ∃ l₁ l₂, l = l₁ ++ c :: l₂ ∧ (∀ z ∈ l₁, gt z c = true) ∧ ∀ z ∈ l, gt c z = false := by
  cases l with
  | nil => cases h
  | cons x xs =>
      rw [exchangeSort_cons] at h
      obtain ⟨rfl, _⟩ := List.cons.inj h
      obtain ⟨l₁, l₂, hsplit, hfirst⟩ := pass_first hgt x xs
      exact ⟨l₁, l₂, hsplit, hfirst, pass_least hgt x xs⟩

end SysProg.Lib
