/-
  File:      SysProg/Gitm/Lines.lean
  Subject:   WHICH WINS `check_game_cond` SEES, AND WHICH OF ITS ANSWERS ARE
             TRUE, whatever the local array holds.

  Rows and columns are searched exactly (`checkRows_ok_iff`,
  `checkColumns_ok_iff`). Of the diagonals that rise the loops copy those up to
  the long one, the second loop copies nothing (`copyRisingLow_eq`); of those
  that fall they copy all but the main diagonal (`fiveCopied_iff`,
  `copiedDiagonals_eq_iff`). Behind the first five copied cells stands what the
  array held before, so the first diagonal already decides: with five black
  stones there the answer is black, and otherwise the array can make it either
  colour (`checkGameCond_hostile`).

  * `checkGameCond_copied` -- five on a copied diagonal end the game, with one
    colour or the other;
  * `checkDiagonals_of_copied` -- the cells of no copied diagonal do not
    matter;
  * `win_found_iff` -- one colour has five: the answer is that colour for every
    content of the array exactly if the five stand in a row or a column, or
    black has the first diagonal;
  * `win_true_iff` -- the answer is true for every content of the array
    exactly if there are five in a row or a column, or black has the first
    diagonal, or both colours have five;
  * `main_diagonal_missed`, `scattered_win` -- what the loops over the
    diagonals do with an array of zeros.
-/
import SysProg.Gitm.Board
import Mathlib.Tactic.IntervalCases

namespace SysProg.Gitm

open Lib

/-! ## 1. Searching a string -/

/-- Five stones of one colour. -/
def fives (c : Colour) : List Char := List.replicate 5 c.key

theorem strstr_fives_iff (s : List Char) (c : Colour) :
    strstr s (fives c) = true ↔ fives c <:+: s := decide_eq_true_iff

theorem fives_infix_iff {s : List Char} {c : Colour} :
    fives c <:+: s ↔ ∃ x, x + 5 ≤ s.length ∧ ∀ i < 5, s[x + i]? = some c.key := by
  rw [List.infix_iff_getElem?]
  simp only [fives, List.length_replicate, List.getElem_replicate]
  constructor
  · intro h
    obtain ⟨x, hx, h⟩ := h
    exact ⟨x, by omega, fun i hi => by rw [Nat.add_comm x i]; exact h i hi⟩
  · intro h
    obtain ⟨x, hx, h⟩ := h
    exact ⟨x, by omega, fun i hi => by rw [Nat.add_comm i x]; exact h i hi⟩

/-- A search that returns has found the colour it returns. -/
theorem searchLine_error {s : List Char} {r : Nat} (h : searchLine s = .error r) :
    ∃ c : Colour, r = c.code ∧ fives c <:+: s := by
  unfold searchLine at h
  split at h
  · rename_i hb
    cases h
    exact ⟨.black, rfl, (strstr_fives_iff s .black).mp hb⟩
  split at h
  · rename_i hw
    cases h
    exact ⟨.white, rfl, (strstr_fives_iff s .white).mp hw⟩
  · cases h

theorem searchLine_ok_iff {s : List Char} :
    searchLine s = .ok () ↔ ∀ c : Colour, ¬ fives c <:+: s := by
  constructor
  · intro h c hc
    have hs := (strstr_fives_iff s c).mpr hc
    unfold searchLine at h
    split at h
    · cases h
    · rename_i hb
      split at h
      · cases h
      · rename_i hw
        cases c with
        | black => exact hb hs
        | white => exact hw hs
  · intro h
    cases hr : searchLine s with
    | ok u => rfl
    | error r =>
        obtain ⟨c, -, hc⟩ := searchLine_error hr
        exact absurd hc (h c)

theorem searchLine_black {s : List Char} (h : fives .black <:+: s) : searchLine s = .error 1 :=
  if_pos ((strstr_fives_iff s .black).mpr h)

theorem searchLine_white {s : List Char} (hb : ¬ fives .black <:+: s) (hw : fives .white <:+: s) :
    searchLine s = .error 2 := by
  have h : ¬ strstr s "#####".toList = true := fun h => hb ((strstr_fives_iff s .black).mp h)
  exact (if_neg h).trans (if_pos ((strstr_fives_iff s .white).mpr hw))

/-! ## 2. Rows and columns -/

theorem IsBoard.ne_nul {map : Map} (hb : IsBoard map) {y x : Nat} (hy : y < 19) (hx : x < 19) :
    map y x ≠ '\x00' := by
  have h := hb.cell y hy x hx
  intro e
  rw [e] at h
  revert h
  decide

/-- A row of the board is the string of its 19 cells. -/
theorem rowString_eq {map : Map} (hb : IsBoard map) {i : Nat} (hi : i < 19) :
    rowString map i = (List.range 19).map (map i) := by
  obtain ⟨rest, hrest⟩ : ∃ rest, (List.range' i (rows - i)).flatMap
      (fun y => (List.range cols).map (map y)) = (List.range 19).map (map i) ++ '\x00' :: rest := by
    have hn : rows - i = (rows - i - 1) + 1 := by
      unfold rows
      omega
    refine ⟨(List.range' (i + 1) (rows - i - 1)).flatMap fun y => (List.range cols).map (map y), ?_⟩
    have hrow : (List.range cols).map (map i) = (List.range 19).map (map i) ++ ['\x00'] := by
      show (List.range (19 + 1)).map (map i) = _
      rw [List.range_succ, List.map_append, List.map_singleton, hb.lastColumn i (by omega)]
    rw [hn, List.range'_succ, List.flatMap_cons, hrow, List.append_assoc]
    rfl
  unfold rowString cstr
  rw [hrest]
  refine takeWhile_append_stop (fun c hc => ?_) (by decide)
  obtain ⟨x, hx, rfl⟩ := List.mem_map.mp hc
  exact decide_eq_true (hb.ne_nul hi (List.mem_range.mp hx))

theorem rowString_last {map : Map} (hb : IsBoard map) : rowString map 19 = [] := by
  have h0 : map 19 0 = '\x00' := hb.lastRow 0 (by decide)
  have e : (List.range' 19 (rows - 19)).flatMap (fun y => (List.range cols).map (map y))
      = '\x00' :: ((List.range' 1 19).map (map 19)) := by
    show (List.range 20).map (map 19) ++ [] = _
    rw [List.append_nil, List.range_eq_range', List.range'_succ, List.map_cons, h0]
  unfold rowString cstr
  rw [e]
  rfl

/-- Five consecutive ones among `n` cells. -/
theorem fives_cells_iff {f : Nat → Char} {n : Nat} {c : Colour} :
    fives c <:+: (List.range n).map f ↔ ∃ x, x + 5 ≤ n ∧ ∀ i < 5, f (x + i) = c.key := by
  rw [fives_infix_iff]
  simp only [List.length_map, List.length_range]
  constructor
  · intro h
    obtain ⟨x, hx, h⟩ := h
    refine ⟨x, hx, fun i hi => ?_⟩
    have := h i hi
    rw [List.getElem?_map, List.getElem?_range (by omega)] at this
    exact Option.some.inj this
  · intro h
    obtain ⟨x, hx, h⟩ := h
    refine ⟨x, hx, fun i hi => ?_⟩
    rw [List.getElem?_map, List.getElem?_range (by omega)]
    exact congrArg some (h i hi)

theorem fives_row_iff {map : Map} {i : Nat} {c : Colour} :
    fives c <:+: (List.range 19).map (map i) ↔ ∃ x < 15, ∀ j < 5, map i (x + j) = c.key := by
  rw [fives_cells_iff]
  refine exists_congr fun x => and_congr_left fun _ => ?_
  omega

theorem checkRows_error {map : Map} (hb : IsBoard map) {r : Nat} (h : checkRows map = .error r) :
    ∃ c : Colour, r = c.code ∧ FiveInRow map c.key := by
  obtain ⟨i, hi, he⟩ := forM_error h
  obtain ⟨c, hr, hc⟩ := searchLine_error he
  have hi' : i < 20 := List.mem_range.mp hi
  by_cases hlast : i = 19
  · rw [hlast, rowString_last hb] at hc
    exact absurd (List.eq_nil_of_infix_nil hc) (by cases c <;> decide)
  · have hlt : i < 19 := by omega
    rw [rowString_eq hb hlt] at hc
    exact ⟨c, hr, i, hlt, fives_row_iff.mp hc⟩

/-- **Rows are searched exactly.** -/
theorem checkRows_ok_iff {map : Map} (hb : IsBoard map) :
    checkRows map = .ok () ↔ ∀ c : Colour, ¬ FiveInRow map c.key := by
  constructor
  · intro h c h'
    obtain ⟨y, hy, hx⟩ := h'
    have hs := forM_ok_iff.mp h y (List.mem_range.mpr (Nat.lt_succ_of_lt hy))
    rw [rowString_eq hb hy] at hs
    exact searchLine_ok_iff.mp hs c (fives_row_iff.mpr hx)
  · intro h
    cases hr : checkRows map with
    | ok u => rfl
    | error r =>
        obtain ⟨c, -, hc⟩ := checkRows_error hb hr
        exact absurd hc (h c)

theorem columnIs_iff {map : Map} {v h : Nat} {c : Char} :
    columnIs map v h c = true ↔ ∀ i < 5, map (v + i) h = c := by
  unfold columnIs
  simp only [Bool.and_eq_true, beq_iff_eq]
  constructor
  · intro h i hi
    obtain ⟨⟨⟨⟨h0, h1⟩, h2⟩, h3⟩, h4⟩ := h
    interval_cases i
    · exact h0
    · exact h1
    · exact h2
    · exact h3
    · exact h4
  · intro hc
    exact ⟨⟨⟨⟨hc 0 (by decide), hc 1 (by decide)⟩, hc 2 (by decide)⟩, hc 3 (by decide)⟩,
      hc 4 (by decide)⟩

theorem checkColumns_error {map : Map} {r : Nat} (h : checkColumns map = .error r) :
    ∃ c : Colour, r = c.code ∧ FiveInColumn map c.key := by
  obtain ⟨x, hx, he⟩ := forM_error h
  obtain ⟨y, hy, he⟩ := forM_error he
  have hx' : x < 19 := List.mem_range.mp hx
  have hy' : y < 15 := List.mem_range.mp hy
  split at he
  · rename_i hb
    cases he
    exact ⟨.black, rfl, x, hx', y, hy', columnIs_iff.mp hb⟩
  split at he
  · rename_i hw
    cases he
    exact ⟨.white, rfl, x, hx', y, hy', columnIs_iff.mp hw⟩
  · cases he

/-- **Columns are searched exactly.** -/
theorem checkColumns_ok_iff {map : Map} :
    checkColumns map = .ok () ↔ ∀ c : Colour, ¬ FiveInColumn map c.key := by
  constructor
  · intro h c h'
    obtain ⟨x, hx, y, hy, hc⟩ := h'
    have hs := forM_ok_iff.mp (forM_ok_iff.mp h x (List.mem_range.mpr hx)) y (List.mem_range.mpr hy)
    have hcol := columnIs_iff.mpr hc
    split at hs
    · cases hs
    · rename_i hb
      split at hs
      · cases hs
      · rename_i hw
        cases c with
        | black => exact hb hcol
        | white => exact hw hcol
  · intro h
    cases hr : checkColumns map with
    | ok u => rfl
    | error r =>
        obtain ⟨c, -, hc⟩ := checkColumns_error hr
        exact absurd hc (h c)

/-- A row or a column of one colour. -/
def FiveStraight (map : Map) (c : Char) : Prop := FiveInRow map c ∨ FiveInColumn map c

theorem FiveStraight.hasFive {map : Map} {c : Char} (h : FiveStraight map c) : HasFive map c :=
  h.elim Or.inl fun h => Or.inr (Or.inl h)

/-! ## 3. The answers -/

/-- In front of the diagonals the first row or column of five decides. -/
theorem checkGameCond_straight {map : Map} (hb : IsBoard map) {c : Colour}
    (h : FiveStraight map c.key) (buffer : List Char) :
    ∃ d : Colour, checkGameCond map buffer = d.code ∧ FiveStraight map d.key := by
  unfold checkGameCond checkWins
  cases hr : checkRows map with
  | error r =>
      obtain ⟨d, rfl, hd⟩ := checkRows_error hb hr
      exact ⟨d, rfl, Or.inl hd⟩
  | ok u =>
      cases hc : checkColumns map with
      | error r =>
          obtain ⟨d, rfl, hd⟩ := checkColumns_error hc
          exact ⟨d, rfl, Or.inr hd⟩
      | ok v =>
          rcases h with h | h
          · exact absurd h ((checkRows_ok_iff hb).mp hr c)
          · exact absurd h (checkColumns_ok_iff.mp hc c)

theorem checkWins_diagonals {map : Map} (hb : IsBoard map)
    (h : ∀ c : Colour, ¬ FiveStraight map c.key) (buffer : List Char) :
    checkWins map buffer = checkDiagonals map buffer := by
  have hr : checkRows map = .ok () :=
    (checkRows_ok_iff hb).mpr fun c hc => h c (Or.inl hc)
  have hc : checkColumns map = .ok () := checkColumns_ok_iff.mpr fun c hc => h c (Or.inr hc)
  unfold checkWins
  rw [hr, hc]
  rfl

theorem searchDiagonal_error {copy : Nat → List Char → List Char} {buffer : List Char} {t r : Nat}
    (h : searchDiagonal copy buffer t = .error r) : ∃ c : Colour, r = c.code := by
  rcases except_bind_error h with h | ⟨u, -, h⟩
  · obtain ⟨c, hc, -⟩ := searchLine_error h
    exact ⟨c, hc⟩
  · cases h

/-- Every early return is that of a colour. -/
theorem checkDiagonals_error {map : Map} {buffer : List Char} {r : Nat}
    (h : checkDiagonals map buffer = .error r) : ∃ c : Colour, r = c.code := by
  have hloop : ∀ {copy : Nat → List Char → List Char} {l : List Nat} {b : List Char},
      l.foldlM (searchDiagonal copy) b = .error r → ∃ c : Colour, r = c.code := by
    intro copy l b hl
    obtain ⟨b', t, -, he⟩ := foldlM_error hl
    exact searchDiagonal_error he
  unfold checkDiagonals at h
  rcases except_bind_error h with h | ⟨b₁, -, h⟩
  · exact hloop h
  rcases except_bind_error h with h | ⟨b₂, -, h⟩
  · exact hloop h
  rcases except_bind_error h with h | ⟨b₃, -, h⟩
  · exact hloop h
  · exact hloop h

/-- The answers of the function: a colour, a tie on a full board, or nothing. -/
theorem checkGameCond_cases {map : Map} (hb : IsBoard map) (buffer : List Char) :
    (∃ c : Colour, checkGameCond map buffer = c.code) ∨
      (checkGameCond map buffer = 3 ∧ ∀ y < 19, ∀ x < 19, map y x ≠ '.') ∨
      checkGameCond map buffer = 0 := by
  unfold checkGameCond
  cases hw : checkWins map buffer with
  | error r =>
      left
      by_cases hs : ∃ c : Colour, FiveStraight map c.key
      · obtain ⟨c, hc⟩ := hs
        obtain ⟨d, hd, -⟩ := checkGameCond_straight hb hc buffer
        unfold checkGameCond at hd
        rw [hw] at hd
        exact ⟨d, hd⟩
      · rw [checkWins_diagonals hb (not_exists.mp hs)] at hw
        exact checkDiagonals_error hw
  | ok b =>
      right
      by_cases ht : tileAvailable map = true
      · exact Or.inr (if_pos ht)
      · refine Or.inl ⟨if_neg ht, fun y hy x hx he => ht ?_⟩
        refine List.any_eq_true.mpr ⟨y, List.mem_range.mpr hy, ?_⟩
        exact List.any_eq_true.mpr ⟨x, List.mem_range.mpr hx, by rw [he]; rfl⟩

/-! ## 4. The diagonals that are copied -/

/-- The cells a round of the first loop copies: the row and the column add up to `t`. -/
def risingCells (map : Map) (t : Nat) : List Char := (List.range (t + 1)).map fun k => map (t - k) k

/-- The cells a round of the third loop copies: the column is the row and `t`. -/
def fallingCells (map : Map) (t : Nat) : List Char :=
  (List.range (19 - t)).map fun k => map k (t + k)

/-- The cells a round of the fourth loop copies: the row is the column and `t`. -/
def fallingLowCells (map : Map) (t : Nat) : List Char :=
  (List.range (19 - t)).map fun k => map (t + k) k

/-- A loop that goes on for `n` rounds writes `n` cells, and what stands around them stays. -/
theorem copyCells_eq (map : Map) {go : Int → Int → Bool} {dy : Int} {n fuel : Nat} {x y : Int}
    {index : Nat} {buffer : List Char} (hgo : ∀ k < n, go (x + k) (y + dy * k) = true)
    (hstop : go (x + n) (y + dy * n) = false) (hn : n < fuel) (hl : index + n ≤ buffer.length) :
    copyCells map go dy fuel x y index buffer =
      buffer.take index ++ (List.range n).map (fun k : Nat => map (y + dy * k).toNat (x + k).toNat) ++
        buffer.drop (index + n) := by
  induction n generalizing fuel x y index buffer with
  | zero =>
      obtain ⟨fuel, rfl⟩ : ∃ f, fuel = f + 1 := ⟨fuel - 1, by omega⟩
      have h0 : go x y = false := by simpa using hstop
      simp [copyCells, h0]
  | succ n ih =>
      obtain ⟨fuel, rfl⟩ : ∃ f, fuel = f + 1 := ⟨fuel - 1, by omega⟩
      have h0 : go x y = true := by simpa using hgo 0 (by omega)
      have hx : ∀ k : Nat, x + 1 + k = x + (k + 1 : Nat) := fun k => by omega
      have hy : ∀ k : Nat, y + dy + dy * k = y + dy * (k + 1 : Nat) := fun k => by
        rw [Nat.cast_succ, Int.mul_add, Int.mul_one]
        omega
      have hi : index < buffer.length := by omega
      rw [copyCells, if_pos h0, ih (fun k hk => by rw [hx, hy]; exact hgo (k + 1) (by omega))
        (by rw [hx, hy]; exact hstop) (by omega) (by rw [List.length_set]; omega)]
      have htake : (buffer.set index (map y.toNat x.toNat)).take (index + 1) =
          buffer.take index ++ [map y.toNat x.toNat] := by
        rw [List.take_add_one, List.take_set_of_le (Nat.le_refl index), List.getElem?_set_self hi]
        rfl
      have hdrop : (buffer.set index (map y.toNat x.toNat)).drop (index + 1 + n) =
          buffer.drop (index + (n + 1)) := by
        rw [List.drop_set_of_lt (by omega), Nat.add_assoc, Nat.add_comm 1 n]
      have hcells : (List.range (n + 1)).map (fun k : Nat => map (y + dy * k).toNat (x + k).toNat) =
          map y.toNat x.toNat ::
            (List.range n).map (fun k : Nat => map (y + dy + dy * k).toNat (x + 1 + k).toNat) := by
        rw [List.range_succ_eq_map, List.map_cons, List.map_map]
        simp only [Function.comp_def, hx, hy]
        simp
      rw [htake, hdrop, hcells, List.append_assoc _ [_], List.singleton_append]

/-- The same from the front of the array, as the four loops call it. -/
theorem copyCells_front (map : Map) {go : Int → Int → Bool} {dy x y : Int} {n : Nat}
    {buffer : List Char} {cells : Nat → Char} (hgo : ∀ k < n, go (x + k) (y + dy * k) = true)
    (hstop : go (x + n) (y + dy * n) = false) (hn : n < rows) (hl : bufferLen ≤ buffer.length)
    (hcells : ∀ k < n, map (y + dy * k).toNat (x + k).toNat = cells k) :
    copyCells map go dy rows x y 0 buffer = (List.range n).map cells ++ buffer.drop n := by
  have hfit : 0 + n ≤ buffer.length := by
    unfold rows at hn
    unfold bufferLen at hl
    omega
  rw [copyCells_eq map hgo hstop hn hfit, List.take_zero, List.nil_append, Nat.zero_add,
    List.map_congr_left fun k hk => hcells k (List.mem_range.mp hk)]

theorem copyRising_eq (map : Map) {t : Nat} (ht : t < 19) {buffer : List Char}
    (hl : bufferLen ≤ buffer.length) :
    copyRising map t buffer = risingCells map t ++ buffer.drop (t + 1) := by
  refine copyCells_front map (fun k hk => decide_eq_true ?_) (decide_eq_false ?_) ?_ hl
    fun k hk => ?_
  · omega
  · omega
  · unfold rows
    omega
  · congr 1 <;> omega

/-- **The second loop copies nothing:** `y <= temp_x` is false at once. -/
theorem copyRisingLow_eq (map : Map) {t : Nat} (ht : t < 18) (buffer : List Char) :
    copyRisingLow map t buffer = buffer :=
  if_neg (by simpa using ht)

theorem copyFalling_eq (map : Map) {t : Nat} (ht : t < 19) {buffer : List Char}
    (hl : bufferLen ≤ buffer.length) :
    copyFalling map t buffer = fallingCells map t ++ buffer.drop (19 - t) := by
  have hrows : (rows : Int) - 1 = 19 := rfl
  refine copyCells_front map (fun k hk => decide_eq_true ?_) (decide_eq_false ?_) ?_ hl
    fun k hk => ?_
  · omega
  · omega
  · unfold rows
    omega
  · congr 1
    omega

theorem copyFallingLow_eq (map : Map) {t : Nat} (ht : t < 19) {buffer : List Char}
    (hl : bufferLen ≤ buffer.length) :
    copyFallingLow map t buffer = fallingLowCells map t ++ buffer.drop (19 - t) := by
  have hrows : (rows : Int) - 1 = 19 := rfl
  refine copyCells_front map (fun k hk => decide_eq_true ?_) (decide_eq_false ?_) ?_ hl
    fun k hk => ?_
  · omega
  · omega
  · unfold rows
    omega
  · congr 1 <;> omega

/-- The cells of a board hold no NUL. -/
theorem cells_ne_nul {map : Map} (hb : IsBoard map) {n : Nat} {row col : Nat → Nat}
    (h : ∀ k < n, row k < 19 ∧ col k < 19) :
    ∀ c ∈ (List.range n).map fun k => map (row k) (col k), c ≠ '\x00' := by
  intro c hc
  obtain ⟨k, hk, rfl⟩ := List.mem_map.mp hc
  obtain ⟨hrow, hcol⟩ := h k (List.mem_range.mp hk)
  exact hb.ne_nul hrow hcol

theorem risingCells_ne_nul {map : Map} (hb : IsBoard map) {t : Nat} (ht : t < 19) :
    ∀ c ∈ risingCells map t, c ≠ '\x00' :=
  cells_ne_nul hb fun k hk => by omega

theorem fallingCells_ne_nul {map : Map} (hb : IsBoard map) {t : Nat} :
    ∀ c ∈ fallingCells map t, c ≠ '\x00' :=
  cells_ne_nul hb fun k hk => by omega

theorem fallingLowCells_ne_nul {map : Map} (hb : IsBoard map) {t : Nat} :
    ∀ c ∈ fallingLowCells map t, c ≠ '\x00' :=
  cells_ne_nul hb fun k hk => by omega

/-- What the four loops copy, in their order. -/
def copiedDiagonals (map : Map) : List (List Char) :=
  (List.range' 4 15).map (risingCells map) ++
    ((List.range' 1 14).reverse.map (fallingCells map) ++
      (List.range' 1 14).reverse.map (fallingLowCells map))

/-- `copy` writes the cells of round `t` to the front of the array. -/
def Copies (copy : Nat → List Char → List Char) (cells : Nat → List Char) (t : Nat) : Prop :=
  (∀ buffer : List Char, bufferLen ≤ buffer.length →
    copy t buffer = cells t ++ buffer.drop (cells t).length) ∧
  (cells t).length ≤ bufferLen

theorem Copies.length {copy : Nat → List Char → List Char} {cells : Nat → List Char} {t : Nat}
    (h : Copies copy cells t) {buffer : List Char} (hl : bufferLen ≤ buffer.length) :
    bufferLen ≤ (copy t buffer).length := by
  have hle := h.2
  rw [h.1 buffer hl, List.length_append, List.length_drop]
  omega

theorem copies_of_length {copy : Nat → List Char → List Char} {cells : Nat → List Char} {t n : Nat}
    (hlen : (cells t).length = n) (hn : n ≤ bufferLen)
    (h : ∀ buffer : List Char, bufferLen ≤ buffer.length →
      copy t buffer = cells t ++ buffer.drop n) : Copies copy cells t := by
  subst hlen
  exact ⟨h, hn⟩

theorem copies_rising (map : Map) {t : Nat} (ht : t < 19) :
    Copies (copyRising map) (risingCells map) t :=
  copies_of_length (n := t + 1) (by simp [risingCells]) (by unfold bufferLen; omega)
    fun _ hl => copyRising_eq map ht hl

theorem copies_risingLow (map : Map) {t : Nat} (ht : t < 18) :
    Copies (copyRisingLow map) (fun _ => []) t :=
  ⟨fun buffer _ => copyRisingLow_eq map ht buffer, Nat.zero_le _⟩

theorem copies_falling (map : Map) {t : Nat} (ht : t < 19) :
    Copies (copyFalling map) (fallingCells map) t :=
  copies_of_length (n := 19 - t) (by simp [fallingCells]) (by unfold bufferLen; omega)
    fun _ hl => copyFalling_eq map ht hl

theorem copies_fallingLow (map : Map) {t : Nat} (ht : t < 19) :
    Copies (copyFallingLow map) (fallingLowCells map) t :=
  copies_of_length (n := 19 - t) (by simp [fallingLowCells]) (by unfold bufferLen; omega)
    fun _ hl => copyFallingLow_eq map ht hl

theorem cstr_append {s : List Char} (h : ∀ c ∈ s, c ≠ '\x00') (rest : List Char) :
    cstr (s ++ rest) = s ++ cstr rest :=
  List.takeWhile_append_of_pos fun c hc => decide_eq_true (h c hc)

section Round

variable {copy copy' : Nat → List Char → List Char} {cells : Nat → List Char} {t : Nat}
  {buffer buffer' : List Char}

/-- A round that goes on has seen no five on the cells it copied. -/
theorem searchDiagonal_ok (h : Copies copy cells t) (hnul : ∀ c ∈ cells t, c ≠ '\x00')
    (hl : bufferLen ≤ buffer.length) (hr : searchDiagonal copy buffer t = .ok buffer') :
    bufferLen ≤ buffer'.length ∧ ∀ c : Colour, ¬ fives c <:+: cells t := by
  have hl' : bufferLen ≤ (buffer.set 0 '\x00').length := by rwa [List.length_set]
  unfold searchDiagonal at hr
  dsimp only at hr
  cases hs : searchLine (cstr (copy t (buffer.set 0 '\x00'))) with
  | error r =>
      rw [hs] at hr
      cases hr
  | ok u =>
      rw [hs] at hr
      cases hr
      refine ⟨h.length hl', fun c hc => ?_⟩
      rw [h.1 _ hl', cstr_append hnul] at hs
      exact searchLine_ok_iff.mp hs c (hc.trans (List.prefix_append _ _).isInfix)

theorem searchDiagonal_congr (h : Copies copy cells t) (h' : Copies copy' cells t)
    (hl : bufferLen ≤ buffer.length) :
    searchDiagonal copy buffer t = searchDiagonal copy' buffer t := by
  have hl' : bufferLen ≤ (buffer.set 0 '\x00').length := by rwa [List.length_set]
  unfold searchDiagonal
  rw [h.1 _ hl', h'.1 _ hl']

end Round

/-- What a loop over the diagonals needs of its rounds. -/
def Rounds (copy : Nat → List Char → List Char) (cells : Nat → List Char) (l : List Nat) : Prop :=
  ∀ t ∈ l, Copies copy cells t ∧ ∀ c ∈ cells t, c ≠ '\x00'

section Loops

variable {map map' : Map} {buffer buffer' : List Char}

theorem rounds_rising (hb : IsBoard map) :
    Rounds (copyRising map) (risingCells map) (List.range' 4 15) := fun t ht => by
  obtain ⟨-, ht⟩ := List.mem_range'_1.mp ht
  exact ⟨copies_rising map ht, risingCells_ne_nul hb ht⟩

theorem rounds_risingLow (map : Map) :
    Rounds (copyRisingLow map) (fun _ => []) (List.range 15).reverse := by
  intro t ht
  have ht' : t < 15 := List.mem_range.mp (List.mem_reverse.mp ht)
  exact ⟨copies_risingLow map (by omega), fun c hc => (List.not_mem_nil hc).elim⟩

theorem rounds_falling (hb : IsBoard map) :
    Rounds (copyFalling map) (fallingCells map) (List.range' 1 14).reverse := fun t ht => by
  obtain ⟨-, ht⟩ := List.mem_range'_1.mp (List.mem_reverse.mp ht)
  exact ⟨copies_falling map (by omega), fallingCells_ne_nul hb⟩

theorem rounds_fallingLow (hb : IsBoard map) :
    Rounds (copyFallingLow map) (fallingLowCells map) (List.range' 1 14).reverse := fun t ht => by
  obtain ⟨-, ht⟩ := List.mem_range'_1.mp (List.mem_reverse.mp ht)
  exact ⟨copies_fallingLow map (by omega), fallingLowCells_ne_nul hb⟩

theorem Rounds.ok {copy : Nat → List Char → List Char} {cells : Nat → List Char} {l : List Nat}
    (h : Rounds copy cells l) (hl : bufferLen ≤ buffer.length)
    (hr : l.foldlM (searchDiagonal copy) buffer = .ok buffer') :
    bufferLen ≤ buffer'.length ∧ ∀ t ∈ l, ∀ c : Colour, ¬ fives c <:+: cells t :=
  foldlM_ok (P := fun b : List Char => bufferLen ≤ b.length) hl
    (fun t ht _ _ hb => searchDiagonal_ok (h t ht).1 (h t ht).2 hb) hr

theorem Rounds.congr {copy copy' : Nat → List Char → List Char} {cells cells' : Nat → List Char}
    {l : List Nat} (h : Rounds copy cells l) (h' : Rounds copy' cells' l)
    (hc : l.map cells = l.map cells') (hl : bufferLen ≤ buffer.length) :
    l.foldlM (searchDiagonal copy) buffer = l.foldlM (searchDiagonal copy') buffer := by
  refine foldlM_congr (P := fun b : List Char => bufferLen ≤ b.length) hl (fun t ht b hb => ?_)
    fun t ht _ _ hb hr => (searchDiagonal_ok (h t ht).1 (h t ht).2 hb hr).1
  have he : cells' t = cells t := (List.map_inj_left.mp hc t ht).symm
  have h'' : Copies copy' cells t := by
    unfold Copies
    rw [← he]
    exact (h' t ht).1
  exact searchDiagonal_congr (h t ht).1 h'' hb

/-- **A search that finds nothing has seen no five on a copied diagonal.** -/
theorem checkDiagonals_ok (hb : IsBoard map) (hl : bufferLen ≤ buffer.length)
    (h : checkDiagonals map buffer = .ok buffer') :
    ∀ cells ∈ copiedDiagonals map, ∀ c : Colour, ¬ fives c <:+: cells := by
  obtain ⟨b₁, h₁, h⟩ := except_bind_ok h
  obtain ⟨b₂, h₂, h⟩ := except_bind_ok h
  obtain ⟨b₃, h₃, h₄⟩ := except_bind_ok h
  obtain ⟨hl₁, hs₁⟩ := (rounds_rising hb).ok hl h₁
  obtain ⟨hl₂, -⟩ := (rounds_risingLow map).ok hl₁ h₂
  obtain ⟨hl₃, hs₃⟩ := (rounds_falling hb).ok hl₂ h₃
  obtain ⟨-, hs₄⟩ := (rounds_fallingLow hb).ok hl₃ h₄
  exact List.forall_mem_append.mpr ⟨List.forall_mem_map.mpr hs₁,
    List.forall_mem_append.mpr ⟨List.forall_mem_map.mpr hs₃, List.forall_mem_map.mpr hs₄⟩⟩

/-- **Nothing but the copied diagonals is looked at.** -/
theorem checkDiagonals_congr (hb : IsBoard map) (hb' : IsBoard map')
    (hc : copiedDiagonals map = copiedDiagonals map') (hl : bufferLen ≤ buffer.length) :
    checkDiagonals map buffer = checkDiagonals map' buffer := by
  obtain ⟨hr, hc⟩ := List.append_inj hc (by simp)
  obtain ⟨hf, hg⟩ := List.append_inj hc (by simp)
  unfold checkDiagonals
  rw [(rounds_rising hb).congr (rounds_rising hb') hr hl]
  refine except_bind_congr fun b₁ h₁ => ?_
  have hl₁ := ((rounds_rising hb').ok hl h₁).1
  rw [(rounds_risingLow map).congr (rounds_risingLow map') rfl hl₁]
  refine except_bind_congr fun b₂ h₂ => ?_
  have hl₂ := ((rounds_risingLow map').ok hl₁ h₂).1
  rw [(rounds_falling hb).congr (rounds_falling hb') hf hl₂]
  refine except_bind_congr fun b₃ h₃ => ?_
  exact (rounds_fallingLow hb).congr (rounds_fallingLow hb') hg ((rounds_falling hb').ok hl₂ h₃).1

end Loops

/-- The cells of the copied diagonals: none in the lower right half but beside the main
    diagonal, and there none with less than five cells. -/
def Copied (y x : Nat) : Prop :=
  y < 19 ∧ x < 19 ∧ ((4 ≤ y + x ∧ y + x ≤ 18) ∨ (y ≠ x ∧ y ≤ x + 14 ∧ x ≤ y + 14))

theorem append_inj_iff {α : Type*} {s s' t t' : List α} (h : s.length = s'.length) :
    s ++ t = s' ++ t' ↔ s = s' ∧ t = t' :=
  ⟨fun e => List.append_inj e h, fun e => by rw [e.1, e.2]⟩

/-- These cells the loops read, and no others. -/
theorem copiedDiagonals_eq_iff {map map' : Map} :
    copiedDiagonals map = copiedDiagonals map' ↔ ∀ y x, Copied y x → map y x = map' y x := by
  have hsplit : copiedDiagonals map = copiedDiagonals map' ↔
      (∀ t, 4 ≤ t ∧ t < 4 + 15 → ∀ k < t + 1, map (t - k) k = map' (t - k) k) ∧
      (∀ t, 1 ≤ t ∧ t < 1 + 14 → ∀ k < 19 - t, map k (t + k) = map' k (t + k)) ∧
      (∀ t, 1 ≤ t ∧ t < 1 + 14 → ∀ k < 19 - t, map (t + k) k = map' (t + k) k) := by
    unfold copiedDiagonals
    rw [append_inj_iff (by simp), append_inj_iff (by simp)]
    simp only [List.map_inj_left, List.mem_reverse, List.mem_range'_1, risingCells, fallingCells,
      fallingLowCells, List.mem_range]
  rw [hsplit]
  constructor
  · intro h y x hyx
    obtain ⟨hy, hx, hyx⟩ := hyx
    obtain ⟨hr, hf, hg⟩ := h
    rcases hyx with ⟨h4, h18⟩ | ⟨hne, hyx, hxy⟩
    · have := hr (y + x) (by omega) x (by omega)
      rwa [Nat.add_sub_cancel] at this
    rcases Nat.lt_or_gt_of_ne hne with hlt | hgt
    · have := hf (x - y) (by omega) y (by omega)
      rwa [Nat.sub_add_cancel hlt.le] at this
    · have := hg (y - x) (by omega) x (by omega)
      rwa [Nat.sub_add_cancel hgt.le] at this
  · intro h
    refine ⟨fun t ht k hk => h _ _ ?_, fun t ht k hk => h _ _ ?_, fun t ht k hk => h _ _ ?_⟩ <;>
      unfold Copied <;> omega

/-- **The other cells do not matter to the diagonals.** -/
theorem checkDiagonals_of_copied {map map' : Map} (hb : IsBoard map) (hb' : IsBoard map')
    (h : ∀ y x, Copied y x → map y x = map' y x) {buffer : List Char}
    (hl : bufferLen ≤ buffer.length) : checkDiagonals map buffer = checkDiagonals map' buffer :=
  checkDiagonals_congr hb hb' (copiedDiagonals_eq_iff.mpr h) hl

/-- The lower half of the main diagonal is not copied. -/
example : ∀ k, 10 ≤ k → ¬ Copied k k := by
  unfold Copied
  omega

/-- Five on a copied diagonal. -/
def FiveCopied (map : Map) (c : Char) : Prop :=
  (∃ y x, y + x ≤ 14 ∧ ∀ i < 5, map (y + 4 - i) (x + i) = c) ∨
    ∃ y < 15, ∃ x < 15, y ≠ x ∧ ∀ i < 5, map (y + i) (x + i) = c

/-- **Which diagonals the loops copy:** of those that rise, the ones up to the long one, of those
    that fall, all but the main diagonal. -/
theorem fiveCopied_iff {map : Map} {c : Colour} :
    FiveCopied map c.key ↔ ∃ cells ∈ copiedDiagonals map, fives c <:+: cells := by
  have hsplit : (∃ cells ∈ copiedDiagonals map, fives c <:+: cells) ↔
      (∃ t, (4 ≤ t ∧ t < 4 + 15) ∧ ∃ x, x + 5 ≤ t + 1 ∧
        ∀ i < 5, map (t - (x + i)) (x + i) = c.key) ∨
      (∃ t, (1 ≤ t ∧ t < 1 + 14) ∧ ∃ y, y + 5 ≤ 19 - t ∧
        ∀ i < 5, map (y + i) (t + (y + i)) = c.key) ∨
      ∃ t, (1 ≤ t ∧ t < 1 + 14) ∧ ∃ x, x + 5 ≤ 19 - t ∧
        ∀ i < 5, map (t + (x + i)) (x + i) = c.key := by
    unfold copiedDiagonals
    simp only [List.mem_append, List.mem_map, List.mem_reverse, List.mem_range'_1, or_and_right,
      exists_or, exists_exists_and_eq_and, risingCells, fallingCells, fallingLowCells,
      fives_cells_iff]
  rw [hsplit]
  constructor
  · intro h
    rcases h with ⟨y, x, hyx, h⟩ | ⟨y, hy, x, hx, hne, h⟩
    · refine Or.inl ⟨y + x + 4, by omega, x, by omega, fun i hi => ?_⟩
      rw [← h i hi]
      congr 1
      omega
    rcases Nat.lt_or_gt_of_ne hne with hlt | hgt
    · refine Or.inr (Or.inl ⟨x - y, by omega, y, by omega, fun i hi => ?_⟩)
      rw [← h i hi]
      congr 1
      omega
    · refine Or.inr (Or.inr ⟨y - x, by omega, x, by omega, fun i hi => ?_⟩)
      rw [← h i hi]
      congr 1
      omega
  · intro h
    rcases h with ⟨t, ht, x, hx, h⟩ | ⟨t, ht, y, hy, h⟩ | ⟨t, ht, x, hx, h⟩
    · refine Or.inl ⟨t - x - 4, x, by omega, fun i hi => ?_⟩
      rw [← h i hi]
      congr 1
      omega
    · refine Or.inr ⟨y, by omega, t + y, by omega, by omega, fun i hi => ?_⟩
      rw [← h i hi, Nat.add_assoc]
    · refine Or.inr ⟨t + x, by omega, x, by omega, by omega, fun i hi => ?_⟩
      rw [← h i hi, Nat.add_assoc]

/-- **Five on a copied diagonal end the game**, whatever the array holds. -/
theorem checkGameCond_copied {map : Map} (hb : IsBoard map) {c : Colour}
    (h : FiveCopied map c.key) {buffer : List Char} (hl : bufferLen ≤ buffer.length) :
    ∃ d : Colour, checkGameCond map buffer = d.code := by
  by_cases hs : ∃ d : Colour, FiveStraight map d.key
  · obtain ⟨d, hd⟩ := hs
    obtain ⟨d', hd', -⟩ := checkGameCond_straight hb hd buffer
    exact ⟨d', hd'⟩
  have hw := checkWins_diagonals hb (not_exists.mp hs) buffer
  cases hr : checkDiagonals map buffer with
  | ok b =>
      obtain ⟨cells, hcells, hc⟩ := fiveCopied_iff.mp h
      exact absurd hc (checkDiagonals_ok hb hl hr cells hcells c)
  | error r =>
      obtain ⟨d, rfl⟩ := checkDiagonals_error hr
      refine ⟨d, ?_⟩
      unfold checkGameCond
      rw [hw, hr]

/-! ## 5. The first diagonal -/

/-- The five cells of the first diagonal, from `map[4][0]` to `map[0][4]`. -/
def firstDiagonal (map : Map) : List Char := (List.range 5).map fun k => map (4 - k) k

/-- Black has the first diagonal. -/
def BlackFirst (map : Map) : Prop := ∀ k < 5, map (4 - k) k = '#'

/-- What the array holds behind the five cells stays. -/
theorem copyRising_first (map : Map) {buffer : List Char} (h : bufferLen ≤ buffer.length) :
    copyRising map 4 (buffer.set 0 '\x00') = firstDiagonal map ++ buffer.drop 5 := by
  have hl : bufferLen ≤ (buffer.set 0 '\x00').length := by rwa [List.length_set]
  rw [copyRising_eq map (by decide) hl, List.drop_set_of_lt (by decide)]
  rfl

theorem cstr_firstDiagonal {map : Map} (hb : IsBoard map) (rest : List Char) :
    cstr (firstDiagonal map ++ rest) = firstDiagonal map ++ cstr rest :=
  cstr_append (risingCells_ne_nul hb (by decide)) rest

/-- **What the search of the first diagonal returns, the function returns.** -/
theorem checkGameCond_first {map : Map} (hb : IsBoard map)
    (hs : ∀ c : Colour, ¬ FiveStraight map c.key) {buffer : List Char}
    (hl : bufferLen ≤ buffer.length) {r : Nat}
    (h : searchLine (firstDiagonal map ++ cstr (buffer.drop 5)) = .error r) :
    checkGameCond map buffer = r := by
  have hd : searchDiagonal (copyRising map) buffer 4 = .error r := by
    have hline : searchLine (cstr (copyRising map 4 (buffer.set 0 '\x00'))) = .error r := by
      rw [copyRising_first map hl, cstr_firstDiagonal hb]
      exact h
    unfold searchDiagonal
    dsimp only
    rw [hline]
    rfl
  have hc : checkDiagonals map buffer = .error r := by
    have hloop : (List.range' 4 15).foldlM (searchDiagonal (copyRising map)) buffer = .error r := by
      rw [List.range'_succ, List.foldlM_cons, hd]
      rfl
    unfold checkDiagonals
    rw [hloop]
    rfl
  unfold checkGameCond
  rw [checkWins_diagonals hb hs, hc]

/-- The array with five stones behind its first five places. -/
def hostile (c : Colour) : List Char :=
  List.replicate 5 '\x00' ++ fives c ++ List.replicate 40 '\x00'

theorem cstr_hostile (c : Colour) : cstr ((hostile c).drop 5) = fives c := by
  cases c <;> decide

theorem fives_append_white {map : Map} (h : ¬ BlackFirst map) :
    ¬ fives .black <:+: firstDiagonal map ++ fives .white := by
  rw [fives_infix_iff]
  intro h
  obtain ⟨x, hx, hc⟩ := h
  have hlen : (firstDiagonal map).length = 5 := by
    unfold firstDiagonal
    rw [List.length_map, List.length_range]
  rw [List.length_append, hlen] at hx
  by_cases h0 : x = 0
  · subst h0
    refine h fun k hk => ?_
    have hk' := hc k hk
    rw [Nat.zero_add, List.getElem?_append_left (by omega), firstDiagonal, List.getElem?_map,
      List.getElem?_range hk] at hk'
    exact Option.some.inj hk'
  · -- the last of the five lies among the white stones
    have h4 := hc 4 (by decide)
    have hx' : x + 4 - 5 < 5 := by
      have : (fives .white).length = 5 := List.length_replicate
      omega
    rw [List.getElem?_append_right (by omega), hlen, fives,
      List.getElem?_replicate_of_lt hx'] at h4
    exact absurd (Option.some.inj h4) (by decide)

/-- **Without five black stones on the first diagonal the array decides.** -/
theorem checkGameCond_hostile {map : Map} (hb : IsBoard map)
    (hs : ∀ c : Colour, ¬ FiveStraight map c.key) (h : ¬ BlackFirst map) (c : Colour) :
    checkGameCond map (hostile c) = c.code := by
  have hin : fives c <:+: firstDiagonal map ++ fives c := (List.suffix_append _ _).isInfix
  refine checkGameCond_first hb hs (by cases c <;> decide) ?_
  rw [cstr_hostile]
  cases c with
  | black => exact searchLine_black hin
  | white => exact searchLine_white (fives_append_white h) hin

theorem checkGameCond_blackFirst {map : Map} (hb : IsBoard map)
    (hs : ∀ c : Colour, ¬ FiveStraight map c.key) (h : BlackFirst map) {buffer : List Char}
    (hl : bufferLen ≤ buffer.length) : checkGameCond map buffer = 1 := by
  have hd : firstDiagonal map = fives .black := by
    have hm : ∀ k ∈ List.range 5, map (4 - k) k = '#' := fun k hk => h k (List.mem_range.mp hk)
    unfold firstDiagonal
    rw [List.map_congr_left hm]
    rfl
  refine checkGameCond_first hb hs hl (searchLine_black ?_)
  rw [hd]
  exact (List.prefix_append _ _).isInfix

theorem BlackFirst.hasFive {map : Map} (h : BlackFirst map) : HasFive map '#' := by
  refine Or.inr (Or.inr (Or.inr ⟨0, by decide, 0, by decide, fun i hi => ?_⟩))
  rw [Nat.zero_add, Nat.zero_add]
  exact h i hi

/-! ## 6. Missed wins and false wins -/

theorem Colour.eq_or_other (c d : Colour) : d = c ∨ d = c.other := by
  cases c <;> cases d <;> decide

theorem Colour.code_other (c : Colour) : c.other.code ≠ c.code := by
  cases c <;> decide

/-- **A win of one colour is found, whatever the array holds, exactly if it stands in a row or a
    column, or is black's first diagonal.** -/
theorem win_found_iff {map : Map} (hb : IsBoard map) {c : Colour} (hc : HasFive map c.key)
    (ho : ¬ HasFive map c.other.key) :
    (∀ buffer : List Char, bufferLen ≤ buffer.length → checkGameCond map buffer = c.code) ↔
      FiveInRow map c.key ∨ FiveInColumn map c.key ∨ (c = .black ∧ BlackFirst map) := by
  rw [← or_assoc]
  have honly : ∀ d : Colour, FiveStraight map d.key → d = c := by
    intro d hd
    refine (c.eq_or_other d).resolve_right fun e => ho ?_
    rw [← e]
    exact hd.hasFive
  constructor
  · intro h
    by_contra hno
    obtain ⟨hns, hnb⟩ := not_or.mp hno
    have hs : ∀ d : Colour, ¬ FiveStraight map d.key := fun d hd => hns (honly d hd ▸ hd)
    have hnf : ¬ BlackFirst map := by
      intro hf
      cases c with
      | black => exact hnb ⟨rfl, hf⟩
      | white => exact ho hf.hasFive
    have hh := h (hostile c.other) (by cases c <;> decide)
    rw [checkGameCond_hostile hb hs hnf] at hh
    exact c.code_other hh
  · intro h buffer hl
    by_cases hst : FiveStraight map c.key
    · obtain ⟨d, hd, hds⟩ := checkGameCond_straight hb hst buffer
      rw [hd, honly d hds]
    · obtain ⟨rfl, hf⟩ := h.resolve_left hst
      exact checkGameCond_blackFirst hb (fun d hd => hst (honly d hd ▸ hd)) hf hl

theorem boardWith_eq_key {stones : List (Nat × Nat × Colour)} {y x : Nat} {c : Colour}
    (h : boardWith stones y x = c.key) : ∃ p ∈ stones, p.2.2 = c := by
  unfold boardWith at h
  split at h
  · split at h
    · rename_i p hp
      refine ⟨p, List.mem_of_find?_eq_some hp, ?_⟩
      cases hc : p.2.2 <;> cases c <;> rw [hc] at h <;> first | rfl | exact absurd h (by decide)
    · cases c <;> exact absurd h (by decide)
  · cases c <;> exact absurd h (by decide)

/-- A colour without a stone has no five. -/
theorem not_hasFive_of_absent {stones : List (Nat × Nat × Colour)} {c : Colour}
    (h : ∀ p ∈ stones, p.2.2 ≠ c) : ¬ HasFive (boardWith stones) c.key := by
  have hcell : ∀ y x, boardWith stones y x ≠ c.key := by
    intro y x hyx
    obtain ⟨p, hp, hpc⟩ := boardWith_eq_key hyx
    exact h p hp hpc
  rintro (⟨_, _, _, _, h5⟩ | ⟨_, _, _, _, h5⟩ | ⟨_, _, _, _, h5⟩ | ⟨_, _, _, _, h5⟩) <;>
    exact hcell _ _ (h5 0 (by decide))

/-- Five black stones in the first row. -/
def firstRow : List (Nat × Nat × Colour) := (List.range 5).map fun x => (0, x, .black)

theorem firstRow_five : FiveInRow (boardWith firstRow) '#' :=
  ⟨0, by decide, 0, by decide, by decide⟩

theorem win_found_iff_row : IsBoard (boardWith firstRow) ∧
    ∀ buffer : List Char, bufferLen ≤ buffer.length →
      checkGameCond (boardWith firstRow) buffer = 1 :=
  ⟨boardWith_isBoard _, (win_found_iff (c := .black) (boardWith_isBoard _) (Or.inl firstRow_five)
    (not_hasFive_of_absent (by decide))).mpr (Or.inl firstRow_five)⟩

/-- Five black stones on the main diagonal, an array of zeros: no loop copies that diagonal. -/
theorem main_diagonal_missed :
    ¬ ∀ (map : Map) (c : Colour), IsBoard map → HasFive map c.key → ¬ HasFive map c.other.key →
      ∀ buffer : List Char, bufferLen ≤ buffer.length → checkGameCond map buffer = c.code := by
  intro h
  have h0 := h (boardWith ((List.range' 3 5).map fun k => (k, k, .black))) .black
    (boardWith_isBoard _)
    (Or.inr (Or.inr (Or.inl ⟨3, by decide, 3, by decide, by decide⟩)))
    (not_hasFive_of_absent (by decide)) (List.replicate 50 '\x00') (by decide)
  revert h0
  decide +kernel

/-- What the answer of `check_game_cond` says about the board. -/
def Truthful (map : Map) (answer : Nat) : Prop :=
  (answer = 1 → HasFive map '#') ∧ (answer = 2 → HasFive map 'o') ∧
    (answer = 3 → ∀ y < 19, ∀ x < 19, map y x ≠ '.')

theorem truthful_code {map : Map} {c : Colour} : Truthful map c.code ↔ HasFive map c.key := by
  constructor
  · intro h
    cases c with
    | black => exact h.1 rfl
    | white => exact h.2.1 rfl
  · intro h
    cases c with
    | black => exact ⟨fun _ => h, fun e => absurd e (by decide), fun e => absurd e (by decide)⟩
    | white => exact ⟨fun e => absurd e (by decide), fun _ => h, fun e => absurd e (by decide)⟩

/-- **The answer is true, whatever the array holds, exactly if there are five in a row or a column,
    or black has the first diagonal, or both colours have five.** -/
theorem win_true_iff {map : Map} (hb : IsBoard map) :
    (∀ buffer : List Char, bufferLen ≤ buffer.length → Truthful map (checkGameCond map buffer)) ↔
      (∃ c : Colour, FiveInRow map c.key ∨ FiveInColumn map c.key) ∨ BlackFirst map ∨
        ∀ c : Colour, HasFive map c.key := by
  constructor
  · intro h
    by_contra hno
    obtain ⟨hns, hno⟩ := not_or.mp hno
    obtain ⟨hnf, hnb⟩ := not_or.mp hno
    refine hnb fun c => truthful_code.mp ?_
    have hh := h (hostile c) (by cases c <;> decide)
    rwa [checkGameCond_hostile hb (not_exists.mp hns) hnf] at hh
  · intro h buffer hl
    by_cases hst : ∃ c : Colour, FiveStraight map c.key
    · obtain ⟨c, hc⟩ := hst
      obtain ⟨d, hd, hds⟩ := checkGameCond_straight hb hc buffer
      rw [hd]
      exact truthful_code.mpr hds.hasFive
    · rcases h.resolve_left hst with hf | hboth
      · rw [checkGameCond_blackFirst hb (not_exists.mp hst) hf hl]
        exact truthful_code (c := .black).mpr hf.hasFive
      · rcases checkGameCond_cases hb buffer with ⟨c, hc⟩ | ⟨h3, hfull⟩ | h0
        · rw [hc]
          exact truthful_code.mpr (hboth c)
        · rw [h3]
          exact ⟨fun e => absurd e (by decide), fun e => absurd e (by decide), fun _ => hfull⟩
        · rw [h0]
          exact ⟨fun e => absurd e (by decide), fun e => absurd e (by decide),
            fun e => absurd e (by decide)⟩

theorem win_true_iff_row : IsBoard (boardWith firstRow) ∧
    ∀ buffer : List Char, bufferLen ≤ buffer.length →
      Truthful (boardWith firstRow) (checkGameCond (boardWith firstRow) buffer) :=
  ⟨boardWith_isBoard _,
    (win_true_iff (boardWith_isBoard _)).mpr (Or.inl ⟨.black, Or.inl firstRow_five⟩)⟩

/-- Three stones of one diagonal and two of another, an array of zeros: the two were left behind
    the three by an earlier loop. -/
theorem scattered_win :
    ¬ ∀ map : Map, IsBoard map → ∀ buffer : List Char, bufferLen ≤ buffer.length →
      Truthful map (checkGameCond map buffer) := by
  intro h
  have h0 := h (boardWith [(2, 16, .black), (3, 17, .black), (4, 18, .black), (13, 5, .black),
    (12, 6, .black)]) (boardWith_isBoard _) (List.replicate 50 '\x00') (by decide)
  exact absurd (h0.1 (by decide +kernel)) (by decide +kernel)

end SysProg.Gitm
