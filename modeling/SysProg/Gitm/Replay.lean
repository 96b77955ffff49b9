/-
  File:      SysProg/Gitm/Replay.lean
  Subject:   THE GAME STATE IS THE REPLAY OF THE HISTORY.

  The history is the concatenation of the coordinates placed so far. Each
  begins with a letter and goes on with digits, so the string determines the
  coordinates (Lib/Lists.lean), and the coordinates determine the board, the
  player and the mist (`Replay`).

  * `invalidCoord_iff` -- the checks of `main` accept exactly A..S followed by
    1..19 without a leading zero;
  * `command_executes`, `step_iterates` -- what a command and an iteration can
    do, case by case;
  * `step_quiet`, `step_placed` -- an iteration places a stone or leaves the
    game as it is;
  * `history_fits` -- the history never leaves its array;
  * `game_replays` -- at every head of the loop before the game ends.
-/
import SysProg.Gitm.Game
import SysProg.Lib.Lists
import Mathlib.Algebra.Order.BigOperators.Group.List
import Mathlib.Data.List.Perm.Subperm
import Mathlib.Tactic.Linarith
import Mathlib.Tactic.Positivity

namespace SysProg.Gitm

open Lib

/-! ## 1. Coordinates -/

/-- The text of a coordinate: a letter and a number. -/
def coordText (h v : Nat) : List Char := Char.ofNat (65 + h) :: itoa v

/-- A..S and 1..19, without a leading zero. -/
def IsCoord (coord : List Char) : Prop :=
  ∃ h < 19, ∃ v, 1 ≤ v ∧ v ≤ 19 ∧ coord = coordText h v

theorem hCoord_coordText {h : Nat} (hh : h < 19) (v : Nat) : hCoord (coordText h v) = h := by
  have : ∀ h < 19, schar (Char.ofNat (65 + h)) - 65 = (h : Int) := by decide
  exact this h hh

theorem vCoord_coordText (h : Nat) {v : Nat} (hv : v ≤ 19) : vCoord (coordText h v) = v :=
  atoi_itoa (by omega)

theorem IsCoord.cell {coord : List Char} (hc : IsCoord coord) :
    cellRow coord < 19 ∧ cellColumn coord < 19 := by
  obtain ⟨h, hh, v, hv1, hv, rfl⟩ := hc
  unfold cellRow cellColumn rows
  rw [hCoord_coordText hh, vCoord_coordText h hv]
  omega

/-- **The centre of the mist lies on the board.** -/
theorem IsCoord.mist {coord : List Char} (hc : IsCoord coord) :
    1 ≤ (mistCentre coord).1 ∧ (mistCentre coord).1 ≤ 19 ∧ 1 ≤ (mistCentre coord).2 ∧
      (mistCentre coord).2 ≤ 19 := by
  obtain ⟨h, hh, v, hv1, hv, rfl⟩ := hc
  have hrange : ∀ {n : Int}, 0 ≤ n → 1 ≤ 1 + n.tmod 19 ∧ 1 + n.tmod 19 ≤ 19 := by
    intro n hn
    have h0 := Int.tmod_nonneg 19 hn
    have h1 := Int.tmod_lt_of_pos n (b := 19) (by decide)
    omega
  unfold mistCentre
  dsimp only
  rw [hCoord_coordText hh, vCoord_coordText h hv]
  have hv1' : (1 : Int) ≤ v := by exact_mod_cast hv1
  have e1 : (0 : Int) ≤ 5 * (h + 1) * (h + 1) + 3 * (h + 1) + 4 := by positivity
  have e2 : (0 : Int) ≤ 4 * v * v + 2 * v - 4 := by nlinarith
  exact ⟨(hrange e1).1, (hrange e1).2, (hrange e2).1, (hrange e2).2⟩

theorem isdigit_bounds {c : Char} (h : isdigit c = true) : 48 ≤ c.toNat ∧ c.toNat ≤ 57 := by
  simp only [isdigit, Char.isDigit, ge_iff_le, Bool.and_eq_true, decide_eq_true_eq,
    UInt32.le_iff_toNat_le] at h
  exact h

theorem digit_eq {c : Char} (h : isdigit c = true) : ∃ k < 10, c = Char.ofNat (48 + k) := by
  obtain ⟨h1, h2⟩ := isdigit_bounds h
  refine ⟨c.toNat - 48, by omega, ?_⟩
  rw [Nat.add_sub_cancel' h1, Char.ofNat_toNat]

/-- The letters that pass are A..S. -/
theorem letter_eq {a : Char} (ha : isalpha a = true) (h : ¬((schar a).tmod 65 < 0 ∨
    18 < (schar a).tmod 65)) : ∃ h < 19, a = Char.ofNat (65 + h) := by
  have hb : (65 ≤ a.toNat ∧ a.toNat ≤ 90) ∨ (97 ≤ a.toNat ∧ a.toNat ≤ 122) := by
    rcases (Bool.or_eq_true a.isUpper a.isLower).mp ha with hu | hl
    · obtain ⟨h1, h2⟩ := of_decide_eq_true hu
      exact Or.inl ⟨UInt32.le_iff_toNat_le.mp h1, UInt32.le_iff_toNat_le.mp h2⟩
    · obtain ⟨h1, h2⟩ := (Bool.and_eq_true _ _).mp hl
      exact Or.inr ⟨UInt32.le_iff_toNat_le.mp (of_decide_eq_true h1),
        UInt32.le_iff_toNat_le.mp (of_decide_eq_true h2)⟩
  have hs : schar a = a.toNat := if_pos (by omega)
  rw [hs, Int.tmod_eq_emod_of_nonneg (by omega)] at h
  refine ⟨a.toNat - 65, by omega, ?_⟩
  rw [Nat.add_sub_cancel' (by omega), Char.ofNat_toNat]

theorem toDigits_one : ∀ k < 10, Nat.toDigits 10 k = [Char.ofNat (48 + k)] := by decide

theorem toDigits_two : ∀ k < 10, k ≠ 0 → ∀ j < 10,
    Nat.toDigits 10 (10 * k + j) = [Char.ofNat (48 + k), Char.ofNat (48 + j)] := by decide +kernel

theorem invalidCoord_coordText : ∀ h < 19, ∀ v < 20, 1 ≤ v →
    invalidCoord (coordText h v) = false := by decide +kernel

/-- What `atoi` reads back of a number that passes the checks. -/
theorem coordText_of_digits {h : Nat} (hh : h < 19) {v : Nat} {ds : List Char}
    (hds : Nat.toDigits 10 v = ds) (hv : v < 100)
    (hr : ¬(vCoord (Char.ofNat (65 + h) :: ds) < 1 ∨ 19 < vCoord (Char.ofNat (65 + h) :: ds))) :
    IsCoord (Char.ofNat (65 + h) :: ds) := by
  subst hds
  have e : vCoord (Char.ofNat (65 + h) :: Nat.toDigits 10 v) = v :=
    atoi_itoa (n := v) (by omega)
  rw [e] at hr
  exact ⟨h, hh, v, by omega, by omega, rfl⟩

/-- **The checks accept exactly the coordinates.** -/
theorem invalidCoord_iff {coord : List Char} : invalidCoord coord = false ↔ IsCoord coord := by
  constructor
  · intro h
    unfold invalidCoord at h
    dsimp only at h
    simp only [Bool.or_eq_false_iff] at h
    obtain ⟨⟨⟨hlen, halpha⟩, hdigits⟩, hrest⟩ := h
    have hl : coord.length = 2 ∨ coord.length = 3 := by
      by_contra hl
      obtain ⟨h2, h3⟩ := not_or.mp hl
      simp [h2, h3] at hlen
    have hd : ∀ c ∈ coord.tail, isdigit c = true := by
      intro c hc
      have := List.any_eq_false.mp hdigits c hc
      simpa using this
    split at hrest
    · cases hrest
    rename_i hzero
    split at hrest
    · cases hrest
    rename_i hletter
    have hr : ¬(vCoord coord < 1 ∨ 19 < vCoord coord) := by simpa using hrest
    match coord, hl with
    | [a, d], _ =>
        obtain ⟨h, hh, rfl⟩ := letter_eq (by simpa using halpha) hletter
        obtain ⟨k, hk, rfl⟩ := digit_eq (hd d List.mem_cons_self)
        exact coordText_of_digits hh (toDigits_one k hk) (by omega) hr
    | [a, d, e], _ =>
        obtain ⟨h, hh, rfl⟩ := letter_eq (by simpa using halpha) hletter
        obtain ⟨k, hk, rfl⟩ := digit_eq (hd d List.mem_cons_self)
        obtain ⟨j, hj, rfl⟩ := digit_eq (hd e (List.mem_cons_of_mem _ List.mem_cons_self))
        have hk0 : k ≠ 0 := by
          rintro rfl
          exact hzero ⟨rfl, rfl⟩
        exact coordText_of_digits hh (toDigits_two k hk hk0 j hj) (by omega) hr
  · intro h
    obtain ⟨h, hh, v, hv1, hv, rfl⟩ := h
    exact invalidCoord_coordText h hh v (by omega) hv1

theorem IsCoord.block {coord : List Char} (hc : IsCoord coord) : IsBlock isdigit coord := by
  obtain ⟨h, hh, v, -, -, rfl⟩ := hc
  have hletter : ∀ h < 19, isdigit (Char.ofNat (65 + h)) = false := by decide
  exact ⟨_, _, rfl, hletter h hh, itoa_digits v⟩

/-- **The history determines the coordinates.** -/
theorem coords_unique {coords coords' : List (List Char)} (hc : ∀ c ∈ coords, IsCoord c)
    (hc' : ∀ c ∈ coords', IsCoord c) (h : coords.flatten = coords'.flatten) : coords = coords' :=
  flatten_blocks_inj (fun c h => (hc c h).block) (fun c h => (hc' c h).block) h

/-! ## 2. The replay -/

/-- The stones of a list of coordinates: black begins. -/
def stones (coords : List (List Char)) : List (Nat × Nat × Colour) :=
  coords.zipIdx.map fun p => (cellRow p.1, cellColumn p.1, colourOf (p.2 % 2))

/-- The centre of the mist after a list of coordinates. -/
def mistOf (coords : List (List Char)) : Int × Int :=
  match coords.getLast? with
  | none => (10, 10)
  | some coord => mistCentre coord

/-- The game state after a list of coordinates, at the head of the loop. -/
structure Replay (s : Game) (coords : List (List Char)) : Prop where
  coord : ∀ c ∈ coords, IsCoord c
  nodup : coords.Nodup
  history : s.history = coords.flatten
  board : s.map = boardWith (stones coords)
  player : s.currPlayer = coords.length % 2
  mist : s.midMist = mistOf coords
  round : s.nextRound = 0

theorem stones_snoc (coords : List (List Char)) (c : List Char) :
    stones (coords ++ [c])
      = stones coords ++ [(cellRow c, cellColumn c, colourOf (coords.length % 2))] := by
  unfold stones
  rw [List.zipIdx_append, List.map_append]
  simp

theorem mistOf_snoc (coords : List (List Char)) (c : List Char) :
    mistOf (coords ++ [c]) = mistCentre c := by
  unfold mistOf
  rw [List.getLast?_concat]

theorem key_ne_dot (c : Colour) : c.key ≠ '.' := by cases c <;> decide

/-- A free cell carries no stone. -/
theorem find?_of_free {l : List (Nat × Nat × Colour)} {y x : Nat} (hy : y < 19) (hx : x < 19)
    (h : boardWith l y x = '.') : (l.find? fun p => p.1 = y ∧ p.2.1 = x) = none := by
  rw [boardWith, if_pos ⟨hy, hx⟩] at h
  split at h
  · exact absurd h (key_ne_dot _)
  · assumption

/-- **A stone on a free cell is one more stone.** -/
theorem boardWith_snoc {l : List (Nat × Nat × Colour)} {y x : Nat} (hy : y < 19) (hx : x < 19)
    (h : boardWith l y x = '.') (c : Colour) :
    boardWith (l ++ [(y, x, c)]) = Map.set (boardWith l) y x c.key := by
  funext y' x'
  unfold Map.set
  by_cases hcell : y' = y ∧ x' = x
  · obtain ⟨rfl, rfl⟩ := hcell
    rw [if_pos ⟨rfl, rfl⟩, boardWith, if_pos ⟨hy, hx⟩, List.find?_append, find?_of_free hy hx h]
    simp
  · rw [if_neg hcell, boardWith, boardWith, List.find?_append]
    have hne : ([(y, x, c)].find? fun p => p.1 = y' ∧ p.2.1 = x') = none := by
      refine List.find?_eq_none.mpr fun p hp => ?_
      rw [List.mem_singleton.mp hp]
      simpa using fun e1 e2 => hcell ⟨e1.symm, e2.symm⟩
    rw [hne, Option.or_none]

/-- A coordinate of the list is occupied. -/
theorem not_mem_of_free {coords : List (List Char)} {c : List Char} (hc : IsCoord c)
    (h : boardWith (stones coords) (cellRow c) (cellColumn c) = '.') : c ∉ coords := by
  intro hm
  obtain ⟨i, hi, rfl⟩ := List.getElem_of_mem hm
  have hf := find?_of_free hc.cell.1 hc.cell.2 h
  have hs : (cellRow coords[i], cellColumn coords[i], colourOf (i % 2)) ∈ stones coords := by
    refine List.mem_map.mpr ⟨(coords[i], i), ?_, rfl⟩
    exact List.mem_zipIdx_iff_getElem?.mpr (List.getElem?_eq_getElem hi)
  exact List.find?_eq_none.mp hf _ hs (by simp)

/-! ## 3. One iteration -/

/-- The line an iteration reads. -/
def nextLine (s : Game) : List Char := (fgets (bufferLen - 1) s.stdin).1

/-- The state once the line is read. -/
def afterLine (s : Game) : Game := { s with stdin := (fgets (bufferLen - 1) s.stdin).2 }

/-- What the commands do, by their word. -/
inductive Executes (l : Locals) (word coord : List Char) (s : Game) : Game → Prop where
  | prints (text : List Char)
      (hw : word = "who".toList ∨ word = "history".toList ∨ word = "view".toList) :
      Executes l word coord s (finish l (s.print text))
  | term (hw : word = "term".toList) : Executes l word coord s { s with status := .returned 1 }
  | resign (text : List Char) (hw : word = "resign".toList) :
      Executes l word coord s { s.print text with status := .returned 0 }
  | place (hw : word = "place".toList) : Executes l word coord s (placeCommand l coord s)
  | unknown (hw : word ∉ ["who".toList, "history".toList, "view".toList, "term".toList,
      "resign".toList, "place".toList]) : Executes l word coord s (s.print invalidText)

theorem command_executes (l : Locals) (word coord : List Char) (s : Game) :
    Executes l word coord s (command l word coord s) := by
  unfold command
  split
  · rename_i hw
    exact .prints _ (Or.inl hw)
  rename_i hwho
  split
  · rename_i hw
    exact .term hw
  rename_i hterm
  split
  · rename_i hw
    exact .resign _ hw
  rename_i hresign
  split
  · rename_i hw
    exact .place hw
  rename_i hplace
  split
  · rename_i hw
    exact .prints _ (Or.inr (Or.inl hw))
  rename_i hhistory
  split
  · rename_i hw
    exact .prints _ (Or.inr (Or.inr hw))
  rename_i hview
  refine .unknown ?_
  simp only [List.mem_cons, hwho, hhistory, hview, hterm, hresign, hplace, List.not_mem_nil, or_self,
    not_false_eq_true]

/-- What an iteration does, by the line it reads. -/
inductive Iterates (l : Locals) (s : Game) : Game → Prop where
  | starved (hin : s.stdin = []) : Iterates l s (s.print invalidText)
  | long (hin : s.stdin ≠ []) (hlong : overlong (nextLine s) = true) :
      Iterates l s (rejectLong (nextLine s) (afterLine s))
  | rejected (hin : s.stdin ≠ []) (hshort : overlong (nextLine s) = false)
      (hline : inputProcessing (nextLine s) = none) :
      Iterates l s ((afterLine s).print invalidText)
  | executed (hin : s.stdin ≠ []) (hshort : overlong (nextLine s) = false) {word coord : List Char}
      (hline : inputProcessing (nextLine s) = some (word, coord)) :
      Iterates l s (command l word coord (afterLine s))

theorem step_iterates (l : Locals) {s : Game} (hrun : s.status = .running) :
    Iterates l s (step s l) := by
  rw [step, if_pos hrun, iteration]
  by_cases hin : s.stdin = []
  · rw [if_pos hin]
    exact .starved hin
  rw [if_neg hin]
  dsimp only
  cases hlong : overlong (fgets (bufferLen - 1) s.stdin).1 with
  | true => exact .long hin hlong
  | false =>
      rw [if_neg Bool.false_ne_true]
      cases hline : inputProcessing (fgets (bufferLen - 1) s.stdin).1 with
      | none => exact .rejected hin hlong hline
      | some p => exact .executed hin hlong hline

/-- The coordinate of a successful `place`: the line is read in full and is the command with a
    valid coordinate, and the cell is free. -/
def placement (s : Game) : Option (List Char) :=
  if s.status ≠ .running ∨ s.stdin = [] ∨ overlong (nextLine s) = true then none
  else
    match inputProcessing (nextLine s) with
    | none => none
    | some (word, coord) =>
        if word = "place".toList ∧ coord ≠ [] ∧ invalidCoord coord = false ∧
            s.map (cellRow coord) (cellColumn coord) = '.' then some coord
        else none

/-- Everything the history determines is as before. -/
structure SameGame (s s' : Game) : Prop where
  map : s'.map = s.map
  history : s'.history = s.history
  currPlayer : s'.currPlayer = s.currPlayer
  midMist : s'.midMist = s.midMist
  nextRound : s'.nextRound = s.nextRound

theorem SameGame.trans {s s₁ s₂ : Game} (h₁ : SameGame s s₁) (h₂ : SameGame s₁ s₂) :
    SameGame s s₂ where
  map := h₂.map.trans h₁.map
  history := h₂.history.trans h₁.history
  currPlayer := h₂.currPlayer.trans h₁.currPlayer
  midMist := h₂.midMist.trans h₁.midMist
  nextRound := h₂.nextRound.trans h₁.nextRound

theorem sameGame_refl (s : Game) : SameGame s s := ⟨rfl, rfl, rfl, rfl, rfl⟩

theorem sameGame_print (s : Game) (text : List Char) : SameGame s (s.print text) :=
  ⟨rfl, rfl, rfl, rfl, rfl⟩

theorem sameGame_stdin (s : Game) (input : List Char) : SameGame s { s with stdin := input } :=
  ⟨rfl, rfl, rfl, rfl, rfl⟩

/-- Without a placement the turn stays. -/
theorem finish_quiet (l : Locals) {s : Game} (h : s.nextRound = 0) : SameGame s (finish l s) := by
  unfold finish
  split
  · exact ⟨rfl, rfl, rfl, rfl, rfl⟩
  split
  · exact ⟨rfl, rfl, rfl, rfl, rfl⟩
  split
  · exact ⟨rfl, rfl, rfl, rfl, rfl⟩
  · rw [if_neg (not_not.mpr h)]
    exact sameGame_refl s

/-- After a placement the turn passes, unless the game ends. -/
theorem finish_turn (l : Locals) {s : Game} (h : s.nextRound ≠ 0)
    (hr : (finish l s).status = .running) :
    finish l s = { s with currPlayer := if s.currPlayer ≠ 0 then 0 else 1, nextRound := 0 } := by
  unfold finish at hr ⊢
  split at hr
  · cases hr
  split at hr
  · cases hr
  split at hr
  · cases hr
  · rename_i h1 h2 h3
    rw [if_neg h1, if_neg h2, if_neg h3, if_pos h]
    split <;> rfl

/-- What the end of a turn prints comes behind what is there, and is nothing while the game goes
    on. -/
theorem finish_stdout (l : Locals) (s : Game) :
    s.stdout <+: (finish l s).stdout ∧
      ((finish l s).status = .running → (finish l s).stdout = s.stdout) := by
  unfold finish
  split
  · exact ⟨List.prefix_append _ _, fun h => by cases h⟩
  split
  · exact ⟨List.prefix_append _ _, fun h => by cases h⟩
  split
  · exact ⟨List.prefix_append _ _, fun h => by cases h⟩
  split
  · split <;> exact ⟨List.prefix_refl _, fun _ => rfl⟩
  · exact ⟨List.prefix_refl _, fun _ => rfl⟩

theorem rejectLong_quiet (line : List Char) (s : Game) : SameGame s (rejectLong line s) := by
  unfold rejectLong
  split
  · exact ⟨rfl, rfl, rfl, rfl, rfl⟩
  · dsimp only
    split <;> exact ⟨rfl, rfl, rfl, rfl, rfl⟩

/-- A `place` that is not successful. -/
theorem placeCommand_quiet (l : Locals) {s : Game} (h : s.nextRound = 0) {coord : List Char}
    (hp : ¬(coord ≠ [] ∧ invalidCoord coord = false ∧
      s.map (cellRow coord) (cellColumn coord) = '.')) :
    SameGame s (placeCommand l coord s) := by
  unfold placeCommand
  split
  · exact sameGame_print s _
  rename_i hne
  split
  · exact sameGame_print s _
  rename_i hvalid
  have hocc : s.map (cellRow coord) (cellColumn coord) ≠ '.' := fun hfree =>
    hp ⟨hne, Bool.eq_false_iff.mpr hvalid, hfree⟩
  rw [place, if_pos hocc]
  exact (sameGame_print s _).trans (finish_quiet l h)

theorem command_quiet (l : Locals) {s : Game} (h : s.nextRound = 0) {word coord : List Char}
    (hp : ¬(word = "place".toList ∧ coord ≠ [] ∧ invalidCoord coord = false ∧
      s.map (cellRow coord) (cellColumn coord) = '.')) :
    SameGame s (command l word coord s) := by
  have hexec := command_executes l word coord s
  generalize command l word coord s = s' at hexec
  cases hexec with
  | prints text _ => exact (sameGame_print s text).trans (finish_quiet l h)
  | term _ => exact ⟨rfl, rfl, rfl, rfl, rfl⟩
  | resign text _ => exact ⟨rfl, rfl, rfl, rfl, rfl⟩
  | place hw => exact placeCommand_quiet l h fun hc => hp ⟨hw, hc⟩
  | unknown _ => exact sameGame_print s _

/-- **An iteration without a successful `place` leaves the game as it is.** -/
theorem step_quiet (l : Locals) {s : Game} (h : s.nextRound = 0) (hp : placement s = none) :
    SameGame s (step s l) := by
  by_cases hrun : s.status = .running
  · have hiter := step_iterates l hrun
    have hs : SameGame s (afterLine s) := sameGame_stdin s _
    generalize step s l = s' at hiter
    cases hiter with
    | starved _ => exact sameGame_print s _
    | long _ _ => exact hs.trans (rejectLong_quiet _ _)
    | rejected _ _ _ => exact hs.trans (sameGame_print _ _)
    | executed hin hshort hline =>
        refine hs.trans (command_quiet l (hs.nextRound.trans h) fun hc => ?_)
        rw [hs.map] at hc
        rw [placement, if_neg (by simp [hrun, hin, hshort]), hline] at hp
        dsimp only at hp
        rw [if_pos hc] at hp
        cases hp
  · rw [step, if_neg hrun]
    exact sameGame_refl s

/-- **A successful `place`**: the stone, the history and the mist, then the turn. -/
theorem step_placed (l : Locals) {s : Game} {coord : List Char} (hp : placement s = some coord) :
    IsCoord coord ∧ s.map (cellRow coord) (cellColumn coord) = '.' ∧
      step s l = finish l { s with
        stdin := (fgets (bufferLen - 1) s.stdin).2
        map := Map.set s.map (cellRow coord) (cellColumn coord) (colourOf s.currPlayer).key
        midMist := mistCentre coord
        history := s.history ++ coord
        nextRound := 1 } := by
  unfold placement at hp
  split at hp
  · cases hp
  rename_i hok
  obtain ⟨hrun, hok⟩ := not_or.mp hok
  obtain ⟨hin, hlong⟩ := not_or.mp hok
  split at hp
  · cases hp
  rename_i word coord' hsome
  split at hp
  · rename_i hc
    cases hp
    obtain ⟨hw, hne, hvalid, hfree⟩ := hc
    refine ⟨invalidCoord_iff.mp hvalid, hfree, ?_⟩
    unfold nextLine at hlong hsome
    rw [step, if_pos (not_not.mp hrun), iteration, if_neg hin]
    dsimp only
    rw [if_neg hlong, hsome, hw]
    show placeCommand l coord _ = _
    rw [placeCommand, if_neg hne, if_neg (Bool.eq_false_iff.mp hvalid), place,
      if_neg (not_not.mpr hfree)]
  · cases hp

/-! ## 4. Every run -/

theorem Replay.of_same {s s' : Game} {coords : List (List Char)} (h : Replay s coords)
    (hs : SameGame s s') : Replay s' coords where
  coord := h.coord
  nodup := h.nodup
  history := hs.history.trans h.history
  board := hs.map.trans h.board
  player := hs.currPlayer.trans h.player
  mist := hs.midMist.trans h.mist
  round := hs.nextRound.trans h.round

/-- **One iteration keeps the replay**, with one coordinate more after a successful `place`. -/
theorem replay_step (l : Locals) {s : Game} {coords : List (List Char)} (h : Replay s coords)
    (hr : (step s l).status = .running) :
    Replay (step s l) (coords ++ (placement s).toList) := by
  cases hp : placement s with
  | none =>
      rw [Option.toList_none, List.append_nil]
      exact h.of_same (step_quiet l h.round hp)
  | some c =>
      obtain ⟨hc, hfree, hstep⟩ := step_placed l hp
      rw [hstep] at hr ⊢
      rw [finish_turn l Nat.one_ne_zero hr]
      have hfree' : boardWith (stones coords) (cellRow c) (cellColumn c) = '.' := by
        rw [← h.board]
        exact hfree
      rw [Option.toList_some]
      exact {
        coord := fun d hd => (List.mem_append.mp hd).elim (h.coord d) fun e =>
          (List.mem_singleton.mp e) ▸ hc
        nodup := by
          refine List.nodup_append.mpr ⟨h.nodup, List.nodup_singleton c, fun a ha b hb e => ?_⟩
          rw [List.mem_singleton.mp hb] at e
          exact not_mem_of_free hc hfree' (e ▸ ha)
        history := by
          show s.history ++ c = _
          rw [h.history, List.flatten_append, List.flatten_singleton]
        board := by
          show Map.set s.map _ _ _ = _
          rw [stones_snoc, boardWith_snoc hc.cell.1 hc.cell.2 hfree', h.board, h.player]
        player := by
          show (if s.currPlayer ≠ 0 then 0 else 1) = _
          rw [h.player, List.length_append, List.length_singleton]
          split <;> omega
        mist := (mistOf_snoc coords c).symm
        round := rfl }

theorem replay_start (stdin : List Char) : Replay (start stdin) [] where
  coord _ hc := absurd hc List.not_mem_nil
  nodup := List.nodup_nil
  history := rfl
  board := rfl
  player := rfl
  mist := rfl
  round := rfl

theorem replay_run (stdin : List Char) (ls : List Locals) :
    (run step (start stdin) ls).status = .running →
      ∃ coords, Replay (run step (start stdin) ls) coords := by
  refine run_inv (I := fun s => s.status = .running → ∃ coords, Replay s coords) ?_ ls
    fun _ => ⟨[], replay_start stdin⟩
  intro s l hs hr
  by_cases hrun : s.status = .running
  · obtain ⟨coords, h⟩ := hs hrun
    exact ⟨_, replay_step l h hr⟩
  · rw [step, if_neg hrun] at hr
    exact absurd hr hrun

/-- The texts of all coordinates. -/
def allCoords : List (List Char) :=
  (List.range 19).flatMap fun h => (List.range' 1 19).map (coordText h)

theorem IsCoord.mem_allCoords {coord : List Char} (hc : IsCoord coord) : coord ∈ allCoords := by
  obtain ⟨h, hh, v, hv1, hv, rfl⟩ := hc
  refine List.mem_flatMap.mpr ⟨h, List.mem_range.mpr hh, ?_⟩
  exact List.mem_map.mpr ⟨v, List.mem_range'_1.mpr ⟨hv1, by omega⟩, rfl⟩

theorem IsCoord.length_le {coord : List Char} (hc : IsCoord coord) : coord.length ≤ 3 := by
  obtain ⟨h, _, v, _, hv, rfl⟩ := hc
  have hdigits : ∀ v < 20, (itoa (v : Nat)).length ≤ 2 := by decide
  exact Nat.succ_le_succ (hdigits v (by omega))

/-- **The history stays within its array**: 361 cells, three characters each. -/
theorem history_fits (stdin : List Char) (ls : List Locals)
    (hr : (run step (start stdin) ls).status = .running) :
    (run step (start stdin) ls).history.length < historyLen := by
  obtain ⟨coords, h⟩ := replay_run stdin ls hr
  have hcells : coords.length ≤ allCoords.length :=
    (h.nodup.subperm fun c hc => (h.coord c hc).mem_allCoords).length_le
  have hsum : coords.flatten.length ≤ coords.length * 3 := by
    rw [List.length_flatten]
    have hle := List.sum_le_card_nsmul (coords.map List.length) 3 fun n hn => by
      obtain ⟨c, hc, rfl⟩ := List.mem_map.mp hn
      exact (h.coord c hc).length_le
    rwa [List.length_map] at hle
  have h361 : allCoords.length = 361 := by decide +kernel
  rw [h.history]
  unfold historyLen
  omega

end SysProg.Gitm
