/-
  File:      SysProg/Lib/Run.lean
  Subject:   RUNS OF A DETERMINISTIC MACHINE `step : σ → ι → σ` over a list
             of inputs, with conditions on the steps.

  * `run`, `Always`, `AllSteps` -- the state after a list of inputs, a
    property of every state met, a condition on every step taken;
  * `run_inv` -- the invariant rule;
  * `always_of_allSteps` -- a property that every admitted step keeps holds
    in every state of a run of admitted steps;
  * `always_iff_allSteps` -- where each step keeps the property exactly if
    it meets the condition, the runs that keep it throughout are exactly
    those all of whose steps meet the condition;
  * `iterate` -- a run over an endless sequence of inputs: what happens in it
    happens at a first step (`iterate_first`), and a measure bounds how long
    it can stay in states in which every step lowers it (`iterate_measure`);
  * `totalCost_le` -- what a run costs, where each step pays from its budget and
    from a potential of the state;
  * `AtRest`, `exists_rest` -- inputs that name the party that moves, or has to
    wait: if every move lowers a measure, every run can be carried on until no
    party can move; `modify_eq_set_of_some` and `sum_set_add` are for a state
    that is a list of parties, and a measure that is a sum over them.
-/
import Mathlib.Algebra.Order.Ring.Nat
import Mathlib.Data.List.Basic

namespace SysProg.Lib

variable {σ ι : Type*} (step : σ → ι → σ)

/-- The state after a list of inputs. -/
def run (s : σ) (is : List ι) : σ := is.foldl step s

/-- `P` holds in every state of the run, the first and the last included. -/
def Always (P : σ → Prop) : σ → List ι → Prop
  | s, [] => P s
  | s, i :: is => P s ∧ Always P (step s i) is

/-- `C` holds of every step of the run: of the state before it and its input. -/
def AllSteps (C : σ → ι → Prop) : σ → List ι → Prop
  | _, [] => True
  | s, i :: is => C s i ∧ AllSteps C (step s i) is

instance decidableAllSteps (C : σ → ι → Prop) [∀ s i, Decidable (C s i)] :
    ∀ (s : σ) (is : List ι), Decidable (AllSteps step C s is)
  | _, [] => isTrue trivial
  | s, i :: is =>
      have := decidableAllSteps C (step s i) is
      inferInstanceAs (Decidable (C s i ∧ AllSteps step C (step s i) is))

variable {step}

theorem run_append (s : σ) (is js : List ι) :
    run step s (is ++ js) = run step (run step s is) js := List.foldl_append

/-- **The invariant rule.** -/
theorem run_inv {I : σ → Prop} (hstep : ∀ s i, I s → I (step s i)) (is : List ι) :
    ∀ {s : σ}, I s → I (run step s is) := by
  induction is with
  | nil => exact fun h => h
  | cons i is ih => exact fun h => ih (hstep _ i h)

/-- An invariant of the admitted steps holds at the end of a run of admitted steps. -/
theorem run_inv_of_allSteps {I : σ → Prop} {C : σ → ι → Prop}
    (hstep : ∀ s i, I s → C s i → I (step s i)) (is : List ι) :
    ∀ {s : σ}, I s → AllSteps step C s is → I (run step s is) := by
  induction is with
  | nil => exact fun h _ => h
  | cons i is ih => exact fun h hc => ih (hstep _ i h hc.1) hc.2

theorem allSteps_of_forall {C : σ → ι → Prop} (h : ∀ s i, C s i) (is : List ι) :
    ∀ {s : σ}, AllSteps step C s is := by
  induction is with
  | nil => exact trivial
  | cons i is ih => exact fun {s} => ⟨h s i, ih⟩

theorem always_first {P : σ → Prop} (is : List ι) {s : σ} (h : Always step P s is) : P s := by
  cases is with
  | nil => exact h
  | cons i is => exact h.1

theorem always_last {P : σ → Prop} (is : List ι) :
    ∀ {s : σ}, Always step P s is → P (run step s is) := by
  induction is with
  | nil => exact fun h => h
  | cons i is ih => exact fun h => ih h.2

theorem always_mono {P Q : σ → Prop} (h : ∀ s, P s → Q s) (is : List ι) :
    ∀ {s : σ}, Always step P s is → Always step Q s is := by
  induction is with
  | nil => exact fun hp => h _ hp
  | cons i is ih => exact fun hp => ⟨h _ hp.1, ih hp.2⟩

/-- **Admitted steps keep the property along the whole run.** -/
theorem always_of_allSteps {P : σ → Prop} {C : σ → ι → Prop}
    (hstep : ∀ s i, P s → C s i → P (step s i)) (is : List ι) :
    ∀ {s : σ}, P s → AllSteps step C s is → Always step P s is := by
  induction is with
  | nil => exact fun h _ => h
  | cons i is ih => exact fun h hc => ⟨h, ih (hstep _ i h hc.1) hc.2⟩

/-- **The exact form**: `I` is an invariant of the steps admitted by `N`; where each such step
    from a state with `P` keeps `P` exactly if it meets `C`, a run of steps admitted by `N` has
    `P` throughout exactly if all its steps meet `C`. -/
theorem always_iff_allSteps {I P : σ → Prop} {N C : σ → ι → Prop}
    (hI : ∀ s i, I s → N s i → I (step s i))
    (hP : ∀ s i, I s → N s i → P s → (P (step s i) ↔ C s i)) :
    ∀ (is : List ι) {s : σ}, I s → P s → AllSteps step N s is →
      (Always step P s is ↔ AllSteps step C s is)
  | [], _, _, hp, _ => ⟨fun _ => trivial, fun _ => hp⟩
  | i :: is, s, hi, hp, hn => by
      have hiff := hP s i hi hn.1 hp
      constructor
      · intro h
        obtain ⟨_, ha⟩ := h
        have hp' : P (step s i) := always_first is ha
        exact ⟨hiff.mp hp', (always_iff_allSteps hI hP is (hI s i hi hn.1) hp' hn.2).mp ha⟩
      · intro h
        obtain ⟨hc, ha⟩ := h
        have hp' := hiff.mpr hc
        exact ⟨hp, (always_iff_allSteps hI hP is (hI s i hi hn.1) hp' hn.2).mpr ha⟩

/-! ## Endless runs -/

section Endless

variable (step) in
/-- The state after `n` steps, over an endless sequence of inputs. -/
def iterate (is : Nat → ι) (s : σ) : Nat → σ
  | 0 => s
  | n + 1 => step (iterate is s n) (is n)

variable {is : Nat → ι} {s : σ}

theorem iterate_inv {I : σ → Prop} (hstep : ∀ s i, I s → I (step s i)) (hs : I s) :
    ∀ n, I (iterate step is s n)
  | 0 => hs
  | n + 1 => hstep _ _ (iterate_inv hstep hs n)

/-- **What holds at some time and not at first begins to hold at some step.** -/
theorem iterate_first {P : σ → Prop} (hs : ¬ P s) :
    ∀ {n : Nat}, P (iterate step is s n) →
      ∃ m < n, ¬ P (iterate step is s m) ∧ P (step (iterate step is s m) (is m))
  | 0, h => absurd h hs
  | n + 1, h => by
      by_cases hn : P (iterate step is s n)
      · obtain ⟨m, hm, h'⟩ := iterate_first hs hn
        exact ⟨m, by omega, h'⟩
      · exact ⟨n, by omega, hn, h⟩

/-- **A measure of the states in `G`**: if every step from such a state lowers it, and only such
    states lead to one, they are left after as many steps as it says at first. -/
theorem iterate_measure {G : σ → Prop} {μ : σ → Nat} (hback : ∀ s i, G (step s i) → G s)
    (hμ : ∀ s i, G s → μ (step s i) < μ s) :
    ∀ n, G (iterate step is s n) → n + μ (iterate step is s n) ≤ μ s
  | 0, _ => Nat.le_of_eq (Nat.zero_add _)
  | n + 1, h => by
      have hn : G (iterate step is s n) := hback _ _ h
      have hle := iterate_measure hback hμ n hn
      have hlt := hμ _ (is n) hn
      rw [iterate]
      omega

end Endless

/-! ## Costs -/

section Costs

variable (step) in
/-- What the steps of a run cost together. -/
def totalCost (cost : σ → ι → Nat) : σ → List ι → Nat
  | _, [] => 0
  | s, i :: is => cost s i + totalCost cost (step s i) is

/-- **A run costs no more than its budgets and the potential it starts with.** -/
theorem totalCost_le {I : σ → Prop} {cost : σ → ι → Nat} {potential : σ → Nat} {budget : ι → Nat}
    (hI : ∀ s i, I s → I (step s i))
    (hcost : ∀ s i, I s → cost s i + potential (step s i) ≤ potential s + budget i) :
    ∀ (is : List ι) {s : σ}, I s → totalCost step cost s is + potential (run step s is) ≤
      potential s + totalCost step (fun _ => budget) s is
  | [], _, _ => by
      rw [totalCost, totalCost, Nat.zero_add]
      exact Nat.le_refl _
  | i :: is, s, hs => by
      have hfirst := hcost s i hs
      have hrest := totalCost_le hI hcost is (hI s i hs)
      rw [totalCost, totalCost]
      show _ + potential (run step (step s i) is) ≤ _
      omega

end Costs

/-! ## Rest -/

section Rest

variable (step) in
/-- No input does anything. -/
def AtRest (s : σ) : Prop := ∀ i, step s i = s

/-- **Every run comes to rest.** -/
theorem exists_rest {I : σ → Prop} {μ : σ → Nat} (hI : ∀ s i, I s → I (step s i))
    (hμ : ∀ s i, I s → step s i = s ∨ μ (step s i) < μ s) {s : σ} (hs : I s) :
    ∃ is, AtRest step (run step s is) := by
  induction hn : μ s using Nat.strongRecOn generalizing s with
  | _ n ih =>
      by_cases hrest : AtRest step s
      · exact ⟨[], hrest⟩
      · obtain ⟨i, hi⟩ := not_forall.mp hrest
        have hlt := (hμ s i hs).resolve_left hi
        obtain ⟨is, his⟩ := ih (μ (step s i)) (hn ▸ hlt) (hI s i hs) rfl
        exact ⟨i :: is, his⟩

/-- A list that is modified at one position. -/
theorem modify_eq_set_of_some {α : Type*} (f : α → α) {l : List α} {i : Nat} {a : α}
    (h : l[i]? = some a) : l.modify i f = l.set i (f a) := by
  apply List.ext_getElem?
  intro j
  rw [List.getElem?_modify, List.getElem?_set]
  by_cases hj : i = j
  · subst hj
    rw [if_pos rfl, if_pos (List.getElem?_eq_some_iff.mp h).1, h]
    simp
  · simp [hj]

/-- A sum over a list that is changed at one position. -/
theorem sum_set_add {α : Type*} (g : α → Nat) (b : α) {l : List α} {i : Nat} {a : α}
    (h : l[i]? = some a) : ((l.set i b).map g).sum + g a = (l.map g).sum + g b := by
  induction l generalizing i with
  | nil => cases h
  | cons c l ih =>
      cases i with
      | zero =>
          cases h
          rw [List.set_cons_zero, List.map_cons, List.sum_cons, List.map_cons, List.sum_cons]
          omega
      | succ i =>
          have hl := ih (i := i) h
          rw [List.set_cons_succ, List.map_cons, List.sum_cons, List.map_cons, List.sum_cons]
          omega

end Rest

end SysProg.Lib
