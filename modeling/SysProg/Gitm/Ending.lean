/-
  File:      SysProg/Gitm/Ending.lean
  Subject:   WHEN THE LOOP ENDS.

  At the end of the input `fgets` returns NULL, and the loop reports an
  invalid line and goes on: from then on nothing changes but the output
  (`starved_run`). So `main` returns only from an iteration that still has input,
  and each of these takes at least one byte (`step_consumes`).

  * `Ends` -- the line that is read ends the game;
  * `step_returned_iff` -- exactly these iterations return;
  * `returns_iff` -- `main` returns exactly if one of the first iterations,
    not more than the input has bytes, reads such a line.
-/
import SysProg.Gitm.Replay

namespace SysProg.Gitm

open Lib

/-! ## 1. The input -/

theorem fgets_rest (n : Nat) (input : List Char) : (fgets n input).2.length ≤ input.length := by
  induction input generalizing n with
  | nil =>
      cases n with
      | zero => exact Nat.le_refl _
      | succ n => exact Nat.le_refl _
  | cons c input ih =>
      cases n with
      | zero => exact Nat.le_refl _
      | succ n =>
          unfold fgets
          split
          · exact Nat.le_succ _
          · exact Nat.le_succ_of_le (ih n)

/-- `fgets` takes at least one byte. -/
theorem fgets_consumes (n : Nat) {input : List Char} (h : input ≠ []) :
    (fgets (n + 1) input).2.length < input.length := by
  cases input with
  | nil => exact absurd rfl h
  | cons c input =>
      unfold fgets
      split
      · exact Nat.lt_succ_self _
      · exact Nat.lt_succ_of_le (fgets_rest n input)

theorem skipRest_rest (input : List Char) : (skipRest input).2.length ≤ input.length := by
  induction input with
  | nil => exact Nat.le_refl _
  | cons c input ih =>
      unfold skipRest
      split
      · exact Nat.le_succ _
      · exact Nat.le_succ_of_le ih

theorem finish_stdin (l : Locals) (s : Game) : (finish l s).stdin = s.stdin := by
  have hp : ∀ text, (s.print text).stdin = s.stdin := fun _ => rfl
  unfold finish
  simp only [apply_ite Game.stdin, hp, ite_self]

theorem rejectLong_stdin (buffer : List Char) (s : Game) :
    (rejectLong buffer s).stdin.length ≤ s.stdin.length := by
  unfold rejectLong
  split
  · exact Nat.le_refl _
  · dsimp only
    split <;> exact skipRest_rest _

theorem placeCommand_stdin (l : Locals) (coord : List Char) (s : Game) :
    (placeCommand l coord s).stdin = s.stdin := by
  unfold placeCommand
  split
  · rfl
  split
  · rfl
  split
  · exact finish_stdin l _
  · exact finish_stdin l _

theorem command_stdin (l : Locals) (word coord : List Char) (s : Game) :
    (command l word coord s).stdin = s.stdin := by
  have hexec := command_executes l word coord s
  generalize command l word coord s = s' at hexec
  cases hexec with
  | prints text _ => exact finish_stdin l (s.print text)
  | term _ => rfl
  | resign text _ => rfl
  | place _ => exact placeCommand_stdin l coord s
  | unknown _ => rfl

/-- **An iteration with input takes some of it.** -/
theorem step_consumes (l : Locals) {s : Game} (hrun : s.status = .running) (hin : s.stdin ≠ []) :
    (step s l).stdin.length < s.stdin.length := by
  have hlt : (afterLine s).stdin.length < s.stdin.length := fgets_consumes 48 hin
  have hiter := step_iterates l hrun
  generalize step s l = s' at hiter
  cases hiter with
  | starved h => exact absurd h hin
  | long _ _ => exact Nat.lt_of_le_of_lt (rejectLong_stdin _ _) hlt
  | rejected _ _ _ => exact hlt
  | executed _ _ _ =>
      rw [command_stdin]
      exact hlt

/-- The loop still runs, and the input is used up. -/
def Starved (s : Game) : Prop := s.status = .running ∧ s.stdin = []

theorem starved_step (s : Game) (l : Locals) (h : Starved s) : Starved (step s l) := by
  obtain ⟨hrun, hin⟩ := h
  rw [step, if_pos hrun, iteration, if_pos hin]
  exact ⟨hrun, hin⟩

/-- **From the end of the input on the loop runs for ever.** -/
theorem starved_run {s : Game} (h : Starved s) (ls : Nat → Locals) (n : Nat) :
    Starved (iterate step ls s n) := iterate_inv starved_step h n

/-! ## 2. The iterations that return -/

/-- `main` has returned. -/
def Returned (s : Game) : Prop := ∃ code, s.status = .returned code

theorem not_returned {s : Game} (h : s.status = .running) : ¬ Returned s := by
  intro hr
  obtain ⟨code, e⟩ := hr
  rw [h] at e
  cases e

/-- One of the three calls of `check_game_cond` ends the game. -/
def Over (l : Locals) (map : Map) : Prop :=
  checkGameCond map l.first = 1 ∨ checkGameCond map l.second = 2 ∨ checkGameCond map l.third = 3

instance (l : Locals) (map : Map) : Decidable (Over l map) :=
  inferInstanceAs (Decidable (_ ∨ _ ∨ _))

theorem finish_returned (l : Locals) {s : Game} (hrun : s.status = .running) :
    Returned (finish l s) ↔ Over l s.map := by
  unfold finish Over
  split
  · rename_i h1
    exact iff_of_true ⟨0, rfl⟩ (Or.inl h1)
  rename_i h1
  split
  · rename_i h2
    exact iff_of_true ⟨0, rfl⟩ (Or.inr (Or.inl h2))
  rename_i h2
  split
  · rename_i h3
    exact iff_of_true ⟨0, rfl⟩ (Or.inr (Or.inr h3))
  rename_i h3
  refine iff_of_false (not_returned ?_) (by simp [h1, h2, h3])
  split
  · split <;> exact hrun
  · exact hrun

/-- The board behind an attempt to place a stone. -/
def mapAfter (map : Map) (currPlayer : Nat) (coord : List Char) : Map :=
  ((place map currPlayer coord).map Prod.fst).getD map

/-- The commands that end the game: `term`, `resign`, and any valid command behind which
    `check_game_cond` reports a winner or a tie. -/
def EndsWith (l : Locals) (map : Map) (currPlayer : Nat) (word coord : List Char) : Prop :=
  word = "term".toList ∨ word = "resign".toList ∨
    ((word = "who".toList ∨ word = "history".toList ∨ word = "view".toList) ∧ Over l map) ∨
    (word = "place".toList ∧ coord ≠ [] ∧ invalidCoord coord = false ∧
      Over l (mapAfter map currPlayer coord))

/-- The line that is read ends the game. -/
def Ends (l : Locals) (s : Game) : Prop :=
  s.status = .running ∧ s.stdin ≠ [] ∧ overlong (nextLine s) = false ∧
    ∃ word coord, inputProcessing (nextLine s) = some (word, coord) ∧
      EndsWith l s.map s.currPlayer word coord

theorem placeCommand_returned (l : Locals) (coord : List Char) {s : Game}
    (hrun : s.status = .running) :
    Returned (placeCommand l coord s) ↔
      coord ≠ [] ∧ invalidCoord coord = false ∧ Over l (mapAfter s.map s.currPlayer coord) := by
  unfold placeCommand mapAfter
  split
  · rename_i hne
    exact iff_of_false (not_returned hrun) fun h => h.1 hne
  rename_i hne
  split
  · rename_i hc
    refine iff_of_false (not_returned hrun) fun h => ?_
    rw [h.2.1] at hc
    cases hc
  rename_i hc
  rw [and_iff_right hne, and_iff_right (Bool.eq_false_iff.mpr hc)]
  cases place s.map s.currPlayer coord with
  | none => exact finish_returned l hrun
  | some p => exact finish_returned l hrun

theorem command_returned (l : Locals) (word coord : List Char) {s : Game}
    (hrun : s.status = .running) :
    Returned (command l word coord s) ↔ EndsWith l s.map s.currPlayer word coord := by
  have hexec := command_executes l word coord s
  generalize command l word coord s = s' at hexec
  unfold EndsWith
  cases hexec with
  | prints text hw =>
      rw [finish_returned l (s := s.print text) hrun]
      obtain rfl | rfl | rfl := hw <;> simp [Game.print]
  | term hw => exact iff_of_true ⟨1, rfl⟩ (Or.inl hw)
  | resign text hw => exact iff_of_true ⟨0, rfl⟩ (Or.inr (Or.inl hw))
  | place hw =>
      rw [placeCommand_returned l coord hrun, hw]
      simp
  | unknown hw =>
      refine iff_of_false (not_returned hrun) fun h => hw ?_
      obtain h | h | ⟨h | h | h, _⟩ | ⟨h, _⟩ := h <;> simp [h]

theorem rejectLong_not_returned (buffer : List Char) {s : Game} (hrun : s.status = .running) :
    ¬ Returned (rejectLong buffer s) := by
  intro h
  obtain ⟨code, e⟩ := h
  unfold rejectLong at e
  split at e
  · cases e
  · dsimp only at e
    split at e
    · exact not_returned hrun ⟨code, e⟩
    · exact not_returned hrun ⟨code, e⟩

/-- **Exactly the iterations that read such a line return.** -/
theorem step_returned_iff (l : Locals) {s : Game} (hn : ¬ Returned s) :
    Returned (step s l) ↔ Ends l s := by
  by_cases hrun : s.status = .running
  · have hiter := step_iterates l hrun
    generalize step s l = s' at hiter
    unfold Ends
    cases hiter with
    | starved hin => exact iff_of_false (not_returned hrun) fun h => h.2.1 hin
    | long _ hlong =>
        refine iff_of_false (rejectLong_not_returned _ hrun) fun h => ?_
        rw [hlong] at h
        cases h.2.2.1
    | rejected _ _ hline =>
        refine iff_of_false (not_returned hrun) fun h => ?_
        obtain ⟨_, _, _, word, coord, e, _⟩ := h
        rw [hline] at e
        cases e
    | executed hin hshort hline =>
        rename_i word coord
        have hc := command_returned l word coord (s := afterLine s) hrun
        constructor
        · intro h
          exact ⟨hrun, hin, hshort, word, coord, hline, hc.mp h⟩
        · intro h
          obtain ⟨_, _, _, word', coord', e, h⟩ := h
          rw [hline] at e
          cases e
          exact hc.mpr h
  · rw [step, if_neg hrun]
    exact iff_of_false hn fun h => hrun h.1

/-! ## 3. The run -/

/-- The loop still runs and has input. -/
def Fed (s : Game) : Prop := s.status = .running ∧ s.stdin ≠ []

/-- Only such a state leads to one. -/
theorem fed_of_step (s : Game) (l : Locals) (h : Fed (step s l)) : Fed s := by
  by_cases hrun : s.status = .running
  · refine ⟨hrun, fun hin => h.2 (starved_step s l ⟨hrun, hin⟩).2⟩
  · rw [Fed, step, if_neg hrun] at h
    exact absurd h.1 hrun

/-- **`main` returns exactly if an iteration that has input reads a line that ends the game**; there
    are at most as many of them as the input has bytes. -/
theorem returns_iff (stdin : List Char) (ls : Nat → Locals) :
    (∃ n code, (iterate step ls (start stdin) n).status = .returned code) ↔
      ∃ n < stdin.length, Ends (ls n) (iterate step ls (start stdin) n) := by
  constructor
  · intro h
    obtain ⟨n, hret⟩ := h
    obtain ⟨m, _, hno, hyes⟩ := iterate_first (P := Returned) (not_returned rfl) hret
    have hends : Ends (ls m) (iterate step ls (start stdin) m) :=
      (step_returned_iff (ls m) hno).mp hyes
    have hfed : Fed (iterate step ls (start stdin) m) := ⟨hends.1, hends.2.1⟩
    -- the bytes left are as many fewer as there were iterations, and not none
    have hle : m + (iterate step ls (start stdin) m).stdin.length ≤ stdin.length :=
      iterate_measure (μ := fun s => s.stdin.length) fed_of_step
        (fun s l hs => step_consumes l hs.1 hs.2) m hfed
    have hpos := List.length_pos_iff.mpr hfed.2
    exact ⟨m, by omega, hends⟩
  · intro h
    obtain ⟨n, _, hends⟩ := h
    obtain ⟨code, e⟩ := (step_returned_iff (ls n) (not_returned hends.1)).mpr hends
    exact ⟨n + 1, code, e⟩

/-- An empty input: the loop reports an invalid line for ever. -/
theorem never_returns :
    ¬ ∀ (stdin : List Char) (ls : Nat → Locals),
      ∃ n code, (iterate step ls (start stdin) n).status = .returned code := by
  intro h
  obtain ⟨n, hret⟩ := h [] fun _ => ⟨[], [], []⟩
  exact not_returned (starved_run ⟨rfl, rfl⟩ _ n).1 hret

end SysProg.Gitm
