/-
  File:      SysProg/Lib/Shuffle.lean
  Subject:   RUNS OVER SHUFFLED INPUTS: neighbours that are apart change
             places.

  * `Shuffled` -- one list of inputs comes from another by such exchanges;
  * `run_related` -- related states stay related over the same inputs;
  * `shuffled_related` -- where an exchange leads to related states, so does
    every shuffle, and its steps meet the same condition.
-/
import Mathlib.Logic.Relation
import SysProg.Lib.Run

namespace SysProg.Lib

variable {σ ι : Type*} {step : σ → ι → σ} {apart : ι → ι → Prop}

/-- Two neighbours that are apart change places. -/
inductive Swaps (apart : ι → ι → Prop) : List ι → List ι → Prop where
  | here {i j : ι} (is : List ι) (h : apart i j) : Swaps apart (i :: j :: is) (j :: i :: is)
  | later (i : ι) {is is' : List ι} (h : Swaps apart is is') : Swaps apart (i :: is) (i :: is')

def Shuffled (apart : ι → ι → Prop) : List ι → List ι → Prop :=
  Relation.ReflTransGen (Swaps apart)

theorem allSteps_and {C D : σ → ι → Prop} : ∀ (is : List ι) {s : σ}, AllSteps step C s is →
    AllSteps step D s is → AllSteps step (fun s i => C s i ∧ D s i) s is
  | [], _, _, _ => trivial
  | _ :: is, _, h, h' => ⟨⟨h.1, h'.1⟩, allSteps_and is h.2 h'.2⟩

theorem allSteps_mono {C D : σ → ι → Prop} (h : ∀ s i, C s i → D s i) : ∀ (is : List ι) {s : σ},
    AllSteps step C s is → AllSteps step D s is
  | [], _, _ => trivial
  | _ :: is, _, hc => ⟨h _ _ hc.1, allSteps_mono h is hc.2⟩

section Related

variable {R : σ → σ → Prop} {C : σ → ι → Prop}
  (hstep : ∀ s s' i, R s s' → C s i → C s' i ∧ R (step s i) (step s' i))

include hstep

/-- Related states take the same steps. -/
theorem run_related : ∀ (is : List ι) {s s' : σ}, R s s' → AllSteps step C s is →
    AllSteps step C s' is ∧ R (run step s is) (run step s' is)
  | [], _, _, hR, _ => ⟨trivial, hR⟩
  | i :: is, s, s', hR, h => by
      obtain ⟨hC, hR'⟩ := hstep s s' i hR h.1
      obtain ⟨hrest, hend⟩ := run_related is hR' h.2
      exact ⟨⟨hC, hrest⟩, hend⟩

variable (hswap : ∀ s i j, R s s → apart i j → C s i → C (step s i) j →
  C s j ∧ C (step s j) i ∧ R (step (step s i) j) (step (step s j) i))

include hswap

theorem swaps_related {is is' : List ι} (hs : Swaps apart is is') :
    ∀ {s : σ}, R s s → AllSteps step C s is →
      AllSteps step C s is' ∧ R (run step s is) (run step s is') := by
  induction hs with
  | here is hij =>
      rename_i i j
      intro s hR h
      obtain ⟨hi, hj, hrest⟩ := h
      obtain ⟨hj', hi', hR'⟩ := hswap s i j hR hij hi hj
      obtain ⟨hrest', hend⟩ := run_related hstep is hR' hrest
      exact ⟨⟨hj', hi', hrest'⟩, hend⟩
  | later i _ ih =>
      intro s hR h
      obtain ⟨hrest, hend⟩ := ih (hstep s s i hR h.1).2 h.2
      exact ⟨⟨h.1, hrest⟩, hend⟩

/-- **A shuffle leads to a related state.** -/
theorem shuffled_related (htrans : ∀ a b c, R a b → R b c → R a c) {is is' : List ι}
    (hs : Shuffled apart is is') {s : σ} (hR : R s s) (h : AllSteps step C s is) :
    AllSteps step C s is' ∧ R (run step s is) (run step s is') := by
  induction hs with
  | refl => exact ⟨h, (run_related hstep is hR h).2⟩
  | tail _ hlast ih =>
      obtain ⟨hmid, hRmid⟩ := ih
      obtain ⟨hend, hRend⟩ := swaps_related hstep hswap hlast hR hmid
      exact ⟨hend, htrans _ _ _ hRmid hRend⟩

end Related

end SysProg.Lib
