/-
  File:      SysProg/Lib/Agree.lean
  Subject:   LISTS THAT AGREE ON THE ELEMENTS WITH A PROPERTY, each such
             element at the same place in both.

  Everything that looks at elements with `p` only gives the same on both
  lists: `filter_agree`, `findIdx?_agree`. What keeps the agreement: changes
  of elements that are without `p` before and after (`agreeOn_modify`),
  hiding one element in both (`agreeOn_hide`), a new end without `p`
  (`agreeOn_snoc`).
-/
import Mathlib.Data.List.Basic

namespace SysProg.Lib

variable {α : Type*} {p q : α → Bool}

/-- Two lists that agree, place by place, on the elements with `p`. -/
def AgreeOn (p : α → Bool) (l l' : List α) : Prop := ∀ k : Nat, l[k]?.filter p = l'[k]?.filter p

theorem AgreeOn.tail {x y : α} {l l' : List α} (h : AgreeOn p (x :: l) (y :: l')) :
    AgreeOn p l l' := fun k => h (k + 1)

theorem AgreeOn.tail_left {x : α} {l : List α} (h : AgreeOn p (x :: l) []) : AgreeOn p l [] :=
  fun k => h (k + 1)

theorem AgreeOn.tail_right {y : α} {l' : List α} (h : AgreeOn p [] (y :: l')) : AgreeOn p [] l' :=
  fun k => h (k + 1)

theorem AgreeOn.symm {l l' : List α} (h : AgreeOn p l l') : AgreeOn p l' l := fun k => (h k).symm

theorem AgreeOn.trans {l l' l'' : List α} (h : AgreeOn p l l') (h' : AgreeOn p l' l'') :
    AgreeOn p l l'' := fun k => (h k).trans (h' k)

theorem not_of_filter_eq_none {x : α} (hq : ∀ x, q x = true → p x = true)
    (h : (some x).filter p = none) : q x = false := by
  refine Bool.eq_false_iff.mpr fun hx => ?_
  rw [Option.filter_some, hq x hx] at h
  cases h

/-- Heads that agree are equal, or both without `p`. -/
theorem head_cases {x y : α} (hq : ∀ x, q x = true → p x = true)
    (h : (some x).filter p = (some y).filter p) : x = y ∨ q x = false ∧ q y = false := by
  by_cases hx : p x = true
  · have hf : (some x).filter p = some x := by rw [Option.filter_some, if_pos hx]
    rw [hf] at h
    exact Or.inl (Option.some.inj (Option.filter_eq_some_iff.mp h.symm).1).symm
  · have hf : (some x).filter p = none := by rw [Option.filter_some, if_neg hx]
    rw [hf] at h
    exact Or.inr ⟨not_of_filter_eq_none hq hf, not_of_filter_eq_none hq h.symm⟩

theorem filter_agree (hq : ∀ x, q x = true → p x = true) :
    ∀ {l l' : List α}, AgreeOn p l l' → l.filter q = l'.filter q
  | [], [], _ => rfl
  | [], y :: l', h => by
      rw [List.filter_cons_of_neg (by rw [not_of_filter_eq_none hq (h 0).symm]; decide)]
      exact filter_agree hq h.tail_right
  | x :: l, [], h => by
      rw [List.filter_cons_of_neg (by rw [not_of_filter_eq_none hq (h 0)]; decide)]
      exact filter_agree hq h.tail_left
  | x :: l, y :: l', h => by
      rw [List.filter_cons, List.filter_cons, filter_agree hq h.tail]
      rcases head_cases hq (h 0) with rfl | ⟨hx, hy⟩
      · rfl
      · rw [hx, hy]
        rfl

theorem findIdx?_agree (hq : ∀ x, q x = true → p x = true) :
    ∀ {l l' : List α}, AgreeOn p l l' → l.findIdx? q = l'.findIdx? q
  | [], [], _ => rfl
  | [], y :: l', h => by
      rw [List.findIdx?_cons, not_of_filter_eq_none hq (h 0).symm,
        ← findIdx?_agree hq h.tail_right]
      rfl
  | x :: l, [], h => by
      rw [List.findIdx?_cons, not_of_filter_eq_none hq (h 0), findIdx?_agree hq h.tail_left]
      rfl
  | x :: l, y :: l', h => by
      rw [List.findIdx?_cons, List.findIdx?_cons, findIdx?_agree hq h.tail]
      rcases head_cases hq (h 0) with rfl | ⟨hx, hy⟩
      · rfl
      · rw [hx, hy]

/-- A change among the elements without `p`. -/
theorem agreeOn_modify (l : List α) {k : Nat} {f : α → α}
    (h : ∀ x, l[k]? = some x → p x = false ∧ p (f x) = false) : AgreeOn p l (l.modify k f) := by
  intro j
  by_cases hj : k = j
  · subst hj
    rw [List.getElem?_modify_eq]
    cases hk : l[k]? with
    | none => rfl
    | some x =>
        obtain ⟨h1, h2⟩ := h x hk
        show (some x).filter p = (some (f x)).filter p
        rw [Option.filter_some, Option.filter_some, h1, h2]
        rfl
  · rw [List.getElem?_modify_ne _ _ hj]

/-- Two changes of one element that both take `p` from it. -/
theorem agreeOn_hide (l : List α) {k : Nat} {f g : α → α}
    (hf : ∀ x, l[k]? = some x → p (f x) = false) (hg : ∀ x, l[k]? = some x → p (g x) = false) :
    AgreeOn p (l.modify k f) (l.modify k g) := by
  intro j
  by_cases hj : k = j
  · subst hj
    rw [List.getElem?_modify_eq, List.getElem?_modify_eq]
    cases hk : l[k]? with
    | none => rfl
    | some x =>
        show (some (f x)).filter p = (some (g x)).filter p
        rw [Option.filter_some, Option.filter_some, hf x hk, hg x hk]
        rfl
  · rw [List.getElem?_modify_ne _ _ hj, List.getElem?_modify_ne _ _ hj]

/-- The same change of elements that are the same. -/
theorem AgreeOn.modify {l l' : List α} (h : AgreeOn p l l') {k : Nat} {x : α} (f : α → α)
    (hx : l[k]? = some x) (hx' : l'[k]? = some x) : AgreeOn p (l.modify k f) (l'.modify k f) := by
  intro j
  by_cases hj : k = j
  · subst hj
    rw [List.getElem?_modify_eq, List.getElem?_modify_eq, hx, hx']
  · rw [List.getElem?_modify_ne _ _ hj, List.getElem?_modify_ne _ _ hj]
    exact h j

theorem agreeOn_snoc (l : List α) {x : α} (h : p x = false) : AgreeOn p l (l ++ [x]) := by
  intro j
  by_cases hj : j < l.length
  · rw [List.getElem?_append_left hj]
  · rw [List.getElem?_eq_none (by omega)]
    by_cases he : j = l.length
    · subst he
      rw [List.getElem?_concat_length, Option.filter_some, h]
      rfl
    · rw [List.getElem?_eq_none (by rw [List.length_append]; simp; omega)]

/-- An element with `p` stands in both lists. -/
theorem AgreeOn.getElem? {l l' : List α} (h : AgreeOn p l l') {k : Nat} {x : α}
    (hk : l[k]? = some x) (hx : p x = true) : l'[k]? = some x := by
  have hf := h k
  rw [hk, Option.filter_some, if_pos hx] at hf
  exact (Option.filter_eq_some_iff.mp hf.symm).1

end SysProg.Lib
