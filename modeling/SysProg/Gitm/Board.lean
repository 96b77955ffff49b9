/-
  File:      SysProg/Gitm/Board.lean
  Subject:   The board of gitm.c and `check_game_cond`.

  `map` is indexed by row and column, as in the source. The 19 by 19 board
  lies in a 20 by 20 array; row 19 and column 19 hold NUL (`IsBoard`), so that
  a row is a string.

  `check_game_cond` is a sequence of loops, each of which may return. Rows are
  searched in place. Diagonals are copied into a local array that is never
  initialised, and searched there as strings; `buffer` is the memory from that
  array on. Of what a loop leaves in the array the next loops see all they do
  not overwrite.

  * `FiveInRow`, .., `HasFive` -- five consecutive stones, what the function
    looks for;
  * `checkGameCond` -- the function, for a given content of the local array.
-/
import SysProg.Lib.CString
import SysProg.Lib.Loops
import Mathlib.Data.List.Infix

namespace SysProg.Gitm

open Lib

/-! ## 1. The board -/

/-- `ROWS`. -/
def rows : Nat := 20

/-- `COLS`. -/
def cols : Nat := 20

/-- `BUFFER_LEN`. -/
def bufferLen : Nat := 50

/-- `map[row][column]`. -/
abbrev Map := Nat → Nat → Char

inductive Colour where
  | black
  | white
  deriving DecidableEq, Repr

namespace Colour

def key : Colour → Char
  | black => '#'
  | white => 'o'

/-- What `check_game_cond` returns for a win. -/
def code : Colour → Nat
  | black => 1
  | white => 2

def other : Colour → Colour
  | black => white
  | white => black

end Colour

/-- The board in its array. -/
structure IsBoard (map : Map) : Prop where
  cell : ∀ y < 19, ∀ x < 19, map y x ∈ ['.', '#', 'o']
  lastRow : ∀ x < 20, map 19 x = '\x00'
  lastColumn : ∀ y < 20, map y 19 = '\x00'

/-- The board with the given stones, by row, column and colour. -/
def boardWith (stones : List (Nat × Nat × Colour)) : Map := fun y x =>
  if y < 19 ∧ x < 19 then
    match stones.find? fun p => p.1 = y ∧ p.2.1 = x with
    | some p => p.2.2.key
    | none => '.'
  else '\x00'

theorem boardWith_isBoard (stones : List (Nat × Nat × Colour)) : IsBoard (boardWith stones) where
  cell y hy x hx := by
    have hk : ∀ c : Colour, c.key ∈ ['.', '#', 'o'] := fun c => by cases c <;> decide
    rw [boardWith, if_pos ⟨hy, hx⟩]
    split
    · exact hk _
    · decide
  lastRow _ _ := if_neg fun h => absurd h.1 (by decide)
  lastColumn _ _ := if_neg fun h => absurd h.2 (by decide)

/-- Five consecutive cells of one kind, from `(y, x)` on. -/
def FiveInRow (map : Map) (c : Char) : Prop := ∃ y < 19, ∃ x < 15, ∀ i < 5, map y (x + i) = c

def FiveInColumn (map : Map) (c : Char) : Prop := ∃ x < 19, ∃ y < 15, ∀ i < 5, map (y + i) x = c

/-- Down and to the right. -/
def FiveFalling (map : Map) (c : Char) : Prop :=
  ∃ y < 15, ∃ x < 15, ∀ i < 5, map (y + i) (x + i) = c

/-- Up and to the right. -/
def FiveRising (map : Map) (c : Char) : Prop :=
  ∃ y < 15, ∃ x < 15, ∀ i < 5, map (y + 4 - i) (x + i) = c

/-- Five consecutive cells in some direction. -/
def HasFive (map : Map) (c : Char) : Prop :=
  FiveInRow map c ∨ FiveInColumn map c ∨ FiveFalling map c ∨ FiveRising map c

instance decidableFiveInRow (map : Map) (c : Char) : Decidable (FiveInRow map c) :=
  inferInstanceAs (Decidable (∃ y < 19, ∃ x < 15, ∀ i < 5, map y (x + i) = c))

instance decidableFiveInColumn (map : Map) (c : Char) : Decidable (FiveInColumn map c) :=
  inferInstanceAs (Decidable (∃ x < 19, ∃ y < 15, ∀ i < 5, map (y + i) x = c))

instance decidableFiveFalling (map : Map) (c : Char) : Decidable (FiveFalling map c) :=
  inferInstanceAs (Decidable (∃ y < 15, ∃ x < 15, ∀ i < 5, map (y + i) (x + i) = c))

instance decidableFiveRising (map : Map) (c : Char) : Decidable (FiveRising map c) :=
  inferInstanceAs (Decidable (∃ y < 15, ∃ x < 15, ∀ i < 5, map (y + 4 - i) (x + i) = c))

instance decidableHasFive (map : Map) (c : Char) : Decidable (HasFive map c) :=
  inferInstanceAs (Decidable
    (FiveInRow map c ∨ FiveInColumn map c ∨ FiveFalling map c ∨ FiveRising map c))

/-! ## 2. Rows and columns -/

/-- Whether `strstr(s, p)` finds `p`. -/
def strstr (s p : List Char) : Bool := decide (p <:+: s)

/-- The two searches of a string, black first. -/
def searchLine (s : List Char) : Except Nat Unit :=
  if strstr s "#####".toList then .error 1
  else if strstr s "ooooo".toList then .error 2
  else .ok ()

/-- The string at `map[i]`: the array from row `i` on, up to its first NUL. -/
def rowString (map : Map) (i : Nat) : List Char :=
  cstr ((List.range' i (rows - i)).flatMap fun y => (List.range cols).map (map y))

/-- "check horizontal". -/
def checkRows (map : Map) : Except Nat Unit :=
  (List.range rows).forM fun i => searchLine (rowString map i)

/-- Five cells below each other, compared one by one. -/
def columnIs (map : Map) (v h : Nat) (c : Char) : Bool :=
  map v h == c && map (v + 1) h == c && map (v + 2) h == c && map (v + 3) h == c
    && map (v + 4) h == c

/-- "check vertical". -/
def checkColumns (map : Map) : Except Nat Unit :=
  (List.range (cols - 1)).forM fun h =>
    (List.range 15).forM fun v =>
      if columnIs map v h '#' then .error 1
      else if columnIs map v h 'o' then .error 2
      else .ok ()

/-! ## 3. Diagonals -/

/-- The inner loops: `go` is the loop's condition, `x` grows by one and `y` by `dy`. -/
def copyCells (map : Map) (go : Int → Int → Bool) (dy : Int) :
    Nat → Int → Int → Nat → List Char → List Char
  | 0, _, _, _, buffer => buffer
  | fuel + 1, x, y, index, buffer =>
      if go x y then
        copyCells map go dy fuel (x + 1) (y + dy) (index + 1)
          (buffer.set index (map y.toNat x.toNat))
      else buffer

/-- `for (x = 0, y = temp_y; x <= temp_y; x++, y--)`. -/
def copyRising (map : Map) (tempY : Nat) (buffer : List Char) : List Char :=
  copyCells map (fun x _ => x ≤ tempY) (-1) rows 0 tempY 0 buffer

/-- `for (x = temp_x, y = 18; y <= temp_x; x++, y--)`. -/
def copyRisingLow (map : Map) (tempX : Nat) (buffer : List Char) : List Char :=
  copyCells map (fun _ y => y ≤ tempX) (-1) rows tempX 18 0 buffer

/-- `for (x = temp_x, y = 0; x < ROWS - 1; x++, y++)`. -/
def copyFalling (map : Map) (tempX : Nat) (buffer : List Char) : List Char :=
  copyCells map (fun x _ => x < rows - 1) 1 rows tempX 0 0 buffer

/-- `for (x = 0, y = temp_y; y < ROWS - 1; x++, y++)`. -/
def copyFallingLow (map : Map) (tempY : Nat) (buffer : List Char) : List Char :=
  copyCells map (fun _ y => y < rows - 1) 1 rows 0 tempY 0 buffer

/-- One round of an outer loop: `strcpy(buffer, "\0")`, the copy, the two searches. -/
def searchDiagonal (copy : Nat → List Char → List Char) (buffer : List Char) (temp : Nat) :
    Except Nat (List Char) :=
  let copied := copy temp (buffer.set 0 '\x00')
  searchLine (cstr copied) >>= fun _ => .ok copied

/-- The outer loops, over the values of `temp_y` and `temp_x`. -/
def checkDiagonals (map : Map) (buffer : List Char) : Except Nat (List Char) := do
  let buffer ← (List.range' 4 15).foldlM (searchDiagonal (copyRising map)) buffer
  let buffer ← (List.range 15).reverse.foldlM (searchDiagonal (copyRisingLow map)) buffer
  let buffer ← (List.range' 1 14).reverse.foldlM (searchDiagonal (copyFalling map)) buffer
  (List.range' 1 14).reverse.foldlM (searchDiagonal (copyFallingLow map)) buffer

/-! ## 4. The function -/

/-- "all tiles are occupied", negated. -/
def tileAvailable (map : Map) : Bool :=
  (List.range (rows - 1)).any fun i => (List.range (cols - 1)).any fun j => map i j == '.'

/-- Everything in front of the tie: `.error` is an early `return`. -/
def checkWins (map : Map) (buffer : List Char) : Except Nat (List Char) := do
  checkRows map
  checkColumns map
  checkDiagonals map buffer

def checkGameCond (map : Map) (buffer : List Char) : Nat :=
  match checkWins map buffer with
  | .error code => code
  | .ok _ => if tileAvailable map then 0 else 3

end SysProg.Gitm
