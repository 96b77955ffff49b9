/-
  File:      SysProg/Lib/Loops.lean
  Subject:   LOOPS THAT MAY RETURN FROM THE FUNCTION AROUND THEM, and loops
             that call a function until it returns nothing.

  A statement that may return is a value of `Except ρ α`: `.error r` is
  `return r`, `.ok a` goes on with `a`. A loop over such statements is `forM`,
  with a state `foldlM`.

  * `forM_ok_iff`, `forM_error` -- a loop goes on exactly if every round does,
    and what it returns some round returns;
  * `foldlM_ok`, `foldlM_error`, `foldlM_congr` -- the same of a loop with a
    state, and an invariant of it.

  `Repeats f s ts s'` says that the calls of `f` from `s` return the values
  `ts` and then nothing, and leave `s'`. A derivation is a terminating run of
  calls.

  * `repeats_total` -- termination, from a measure;
  * `repeats_unique` -- the run is determined by its start;
  * `repeats_inv` -- the invariant rule.
-/
import Mathlib.Data.List.Basic
import Mathlib.Order.Basic

namespace SysProg.Lib

/-! ## 1. Loops that may return -/

section Return

variable {ρ α : Type*} {β γ : Type}

/-- A sequence returns what its first or its second part returns. -/
theorem except_bind_error {x : Except ρ β} {f : β → Except ρ γ} {r : ρ}
    (h : (x >>= f) = .error r) : x = .error r ∨ ∃ a, x = .ok a ∧ f a = .error r := by
  cases x with
  | error r' =>
      cases h
      exact Or.inl rfl
  | ok a => exact Or.inr ⟨a, rfl, h⟩

/-- A sequence that goes on has gone on in both parts. -/
theorem except_bind_ok {x : Except ρ β} {f : β → Except ρ γ} {c : γ} (h : (x >>= f) = .ok c) :
    ∃ a, x = .ok a ∧ f a = .ok c := by
  cases x with
  | error r => cases h
  | ok a => exact ⟨a, rfl, h⟩

theorem except_bind_congr {x : Except ρ β} {f g : β → Except ρ γ}
    (h : ∀ a, x = .ok a → f a = g a) : (x >>= f) = (x >>= g) := by
  cases x with
  | error r => rfl
  | ok a => exact h a rfl

theorem forM_round (f : α → Except ρ Unit) (a : α) (l : List α) :
    (a :: l).forM f = (f a >>= fun _ => l.forM f) := rfl

/-- **A loop goes on exactly if every round does.** -/
theorem forM_ok_iff {f : α → Except ρ Unit} {l : List α} :
    l.forM f = .ok () ↔ ∀ a ∈ l, f a = .ok () := by
  induction l with
  | nil => exact ⟨fun _ _ h => (List.not_mem_nil h).elim, fun _ => rfl⟩
  | cons a l ih =>
      rw [forM_round, List.forall_mem_cons, ← ih]
      cases hf : f a with
      | error r =>
          refine ⟨fun h => ?_, fun h => ?_⟩
          · cases h
          · cases h.1
      | ok u => exact ⟨fun h => ⟨rfl, h⟩, fun h => h.2⟩

/-- **What a loop returns, some round returns.** -/
theorem forM_error {f : α → Except ρ Unit} {r : ρ} {l : List α} (h : l.forM f = .error r) :
    ∃ a ∈ l, f a = .error r := by
  induction l with
  | nil => cases h
  | cons a l ih =>
      rw [forM_round] at h
      cases hf : f a with
      | error r' =>
          rw [hf] at h
          cases h
          exact ⟨a, List.mem_cons_self, hf⟩
      | ok u =>
          rw [hf] at h
          obtain ⟨b, hb, he⟩ := ih h
          exact ⟨b, List.mem_cons_of_mem a hb, he⟩

/-- The same of a loop with a state. -/
theorem foldlM_error {f : β → α → Except ρ β} {r : ρ} {l : List α} {b : β}
    (h : l.foldlM f b = .error r) : ∃ b' a, a ∈ l ∧ f b' a = .error r := by
  induction l generalizing b with
  | nil => cases h
  | cons a l ih =>
      rw [List.foldlM_cons] at h
      cases hf : f b a with
      | error r' =>
          rw [hf] at h
          cases h
          exact ⟨b, a, List.mem_cons_self, hf⟩
      | ok b₁ =>
          rw [hf] at h
          obtain ⟨b', a', ha', he⟩ := ih h
          exact ⟨b', a', List.mem_cons_of_mem a ha', he⟩

section Rounds

variable {f g : β → α → Except ρ β} {P : β → Prop}

/-- **A loop that runs to its end:** what every round keeps holds at the end, and what a round
    that goes on says of its element holds of every element. -/
theorem foldlM_ok {Q : α → Prop} {l : List α} {b b' : β} (hb : P b)
    (hf : ∀ a ∈ l, ∀ b b', P b → f b a = .ok b' → P b' ∧ Q a) (h : l.foldlM f b = .ok b') :
    P b' ∧ ∀ a ∈ l, Q a := by
  induction l generalizing b with
  | nil =>
      cases h
      exact ⟨hb, fun a ha => (List.not_mem_nil ha).elim⟩
  | cons a l ih =>
      rw [List.foldlM_cons] at h
      cases hr : f b a with
      | error r =>
          rw [hr] at h
          cases h
      | ok b₁ =>
          rw [hr] at h
          obtain ⟨hb₁, ha⟩ := hf a List.mem_cons_self b b₁ hb hr
          obtain ⟨hb', hl⟩ := ih hb₁ (fun x hx => hf x (List.mem_cons_of_mem a hx)) h
          exact ⟨hb', List.forall_mem_cons.mpr ⟨ha, hl⟩⟩

/-- Rounds that agree on the states a loop can have make the same loop. -/
theorem foldlM_congr {l : List α} {b : β} (hb : P b) (hfg : ∀ a ∈ l, ∀ b, P b → f b a = g b a)
    (hf : ∀ a ∈ l, ∀ b b', P b → f b a = .ok b' → P b') : l.foldlM f b = l.foldlM g b := by
  induction l generalizing b with
  | nil => rfl
  | cons a l ih =>
      rw [List.foldlM_cons, List.foldlM_cons, ← hfg a List.mem_cons_self b hb]
      cases hr : f b a with
      | error r => rfl
      | ok b₁ =>
          exact ih (hf a List.mem_cons_self b b₁ hb hr)
            (fun x hx => hfg x (List.mem_cons_of_mem a hx))
            fun x hx => hf x (List.mem_cons_of_mem a hx)

end Rounds

end Return

/-! ## 2. Calls until nothing is returned -/

section Repeat

variable {σ τ : Type*}

inductive Repeats (f : σ → Option τ × σ) : σ → List τ → σ → Prop where
  | stop {s s' : σ} (h : f s = (none, s')) : Repeats f s [] s'
  | more {s s₁ s' : σ} {t : τ} {ts : List τ} (h : f s = (some t, s₁)) (hs : Repeats f s₁ ts s') :
      Repeats f s (t :: ts) s'

variable {f : σ → Option τ × σ}

theorem repeats_unique {s s₁ s₂ : σ} {ts₁ ts₂ : List τ} (h₁ : Repeats f s ts₁ s₁)
    (h₂ : Repeats f s ts₂ s₂) : ts₁ = ts₂ ∧ s₁ = s₂ := by
  induction h₁ generalizing ts₂ with
  | stop h =>
      cases h₂ with
      | stop h' =>
          rw [h] at h'
          exact ⟨rfl, congrArg Prod.snd h'⟩
      | more h' _ =>
          rw [h] at h'
          cases h'
  | more h _ ih =>
      cases h₂ with
      | stop h' =>
          rw [h] at h'
          cases h'
      | more h' hs' =>
          rw [h] at h'
          cases h'
          obtain ⟨e₁, e₂⟩ := ih hs'
          exact ⟨by rw [e₁], e₂⟩

/-- **Termination from a measure**: under an invariant `I` every call that returns a value keeps
    `I` and lowers `μ`. Then the calls end, with at most `μ s` values. -/
theorem repeats_total {I : σ → Prop} {μ : σ → Nat}
    (hI : ∀ s s' t, I s → f s = (some t, s') → I s' ∧ μ s' < μ s) :
    ∀ (n : Nat) (s : σ), μ s ≤ n → I s → ∃ ts s', Repeats f s ts s' ∧ ts.length ≤ μ s := by
  intro n
  induction n with
  | zero =>
      intro s hn hs
      cases ho : (f s).1 with
      | none => exact ⟨[], (f s).2, .stop (Prod.ext ho rfl), Nat.zero_le _⟩
      | some t =>
          have h := hI s (f s).2 t hs (Prod.ext ho rfl)
          omega
  | succ n ih =>
      intro s hn hs
      cases ho : (f s).1 with
      | none => exact ⟨[], (f s).2, .stop (Prod.ext ho rfl), Nat.zero_le _⟩
      | some t =>
          have hf : f s = (some t, (f s).2) := Prod.ext ho rfl
          obtain ⟨hs₁, hlt⟩ := hI s (f s).2 t hs hf
          obtain ⟨ts, s', hr, hl⟩ := ih (f s).2 (by omega) hs₁
          exact ⟨t :: ts, s', .more hf hr, by rw [List.length_cons]; omega⟩

/-- **The invariant rule**: what every call keeps holds after the calls. -/
theorem repeats_inv {I : σ → Prop} (hI : ∀ s s' ot, I s → f s = (ot, s') → I s') {s s' : σ}
    {ts : List τ} (h : Repeats f s ts s') (hs : I s) : I s' := by
  induction h with
  | stop h => exact hI _ _ _ hs h
  | more h _ ih => exact ih (hI _ _ _ hs h)

end Repeat

end SysProg.Lib
