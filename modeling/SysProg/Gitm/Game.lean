/-
  File:      SysProg/Gitm/Game.lean
  Subject:   The main loop of gitm.c: reading a line, the commands, the turn.

  Standard input is the list of the bytes still to come; an iteration of the
  loop takes a line from it (`fgets` with room for 49 bytes) and, where the
  line is longer, the rest of it by `getchar`. At the end of the input `fgets`
  returns NULL and the loop goes round without an end.

  `check_game_cond` is called up to three times in an iteration, each time
  with whatever its local array holds; `Locals` are these contents.

  `main` ends by a `return` or by the NULL that `strcmp` gets where `strtok`
  finds no word in an overlong line (`Status`).

  * `inputProcessing`, `place`, `viewText` -- the functions;
  * `iteration`, `step` -- the loop.
-/
import SysProg.Gitm.Board
import SysProg.Lib.Run

namespace SysProg.Gitm

open Lib

/-! ## 1. The state -/

/-- `HISTORY_LEN`. -/
def historyLen : Nat := 1500

inductive Status where
  | running
  | returned (code : Nat)
  | crashed
  deriving DecidableEq, Repr

structure Game where
  map : Map
  history : List Char
  currPlayer : Nat
  nextRound : Nat
  midMist : Int × Int
  stdin : List Char
  stdout : List Char
  status : Status

/-- What the local arrays of the calls of `check_game_cond` hold. -/
structure Locals where
  first : List Char
  second : List Char
  third : List Char

def Game.print (s : Game) (text : List Char) : Game := { s with stdout := s.stdout ++ text }

/-- The state in front of the loop. -/
def start (stdin : List Char) : Game :=
  { map := boardWith [], history := [], currPlayer := 0, nextRound := 0, midMist := (10, 10),
    stdin := stdin, stdout := [], status := .running }

def invalidText : List Char := "Invalid!\n".toList

def invalidCoordText : List Char := "Invalid coordinate\n".toList

/-! ## 2. Reading a line -/

/-- `fgets` with room for `n` bytes: the bytes read, and the rest of the input. -/
def fgets : Nat → List Char → List Char × List Char
  | 0, input => ([], input)
  | _ + 1, [] => ([], [])
  | n + 1, c :: input =>
      if c = '\n' then ([c], input) else (c :: (fgets n input).1, (fgets n input).2)

/-- The buffer is full and the line not at its end. -/
def overlong (input : List Char) : Bool :=
  (cstr input).length = bufferLen - 1 && input[bufferLen - 2]? ≠ some '\n'

/-- The loop over `getchar`: whether it met a space, and the rest of the input. It ends behind a
    NUL or a newline, and at the end of the input. -/
def skipRest : List Char → Bool × List Char
  | [] => (false, [])
  | c :: input =>
      if c = '\x00' ∨ c = '\n' then (false, input)
      else (c = ' ' || (skipRest input).1, (skipRest input).2)

/-- Whether a third word follows the first; `rest` is where `strtok` goes on. -/
def thirdWord (rest : List Char) : Bool :=
  match strtok ' ' rest with
  | none => false
  | some (_, rest) => (strtok ' ' rest).isSome

/-- An overlong line. -/
def rejectLong (line : List Char) (s : Game) : Game :=
  match strtok ' ' line with
  | none => { s with status := .crashed }
  | some (word, rest) =>
      let coordProbability := word = "place".toList ∧ thirdWord rest = false
      let skipped := skipRest s.stdin
      let s₁ := { s with stdin := skipped.2 }
      if coordProbability ∧ skipped.1 = false then s₁.print invalidCoordText
      else s₁.print invalidText

/-- `input_processing`: the two entries of `player_argv`, or `none` if the line is rejected. -/
def inputProcessing (line : List Char) : Option (List Char × List Char) :=
  let input := cutAt '\n' line
  if input = [] then none
  else if input.head? = some ' ' ∨ input.getLast? = some ' ' then none
  else if 1 < input.count ' ' then none
  else
    -- the input does not begin with a space, so `strtok` finds a word
    let first := (strtok ' ' input).getD ([], [])
    let second := ((strtok ' ' first.2).map Prod.fst).getD []
    if first.1 ≠ "place".toList ∧ second ≠ [] then none else some (first.1, second)

/-! ## 3. Coordinates -/

def isalpha (c : Char) : Bool := c.isAlpha

/-- The value of a `char`. -/
def schar (c : Char) : Int := if c.toNat < 128 then c.toNat else c.toNat - 256

/-- `coord_input[0] - 'A'`. -/
def hCoord (coord : List Char) : Int := schar (coord.headD '\x00') - 65

/-- `atoi(coord_input + 1)`. -/
def vCoord (coord : List Char) : Int := atoi coord.tail

/-- The checks that set `invalid_coord`. -/
def invalidCoord (coord : List Char) : Bool :=
  let letter := schar (coord.headD '\x00')
  (coord.length ≠ 2 && coord.length ≠ 3)
    || !isalpha (coord.headD '\x00')
    || coord.tail.any (fun c => !isdigit c)
    || (if coord.length = 3 ∧ coord.tail.head? = some '0' then true
        else if letter.tmod 65 < 0 ∨ 18 < letter.tmod 65 then true
        else vCoord coord < 1 || 19 < vCoord coord)

/-- `map[ROWS - v_coord - 1][h_coord]`: the row. -/
def cellRow (coord : List Char) : Nat := (rows - vCoord coord - 1).toNat

def cellColumn (coord : List Char) : Nat := (hCoord coord).toNat

/-- The centre of the mist after a placement. -/
def mistCentre (coord : List Char) : Int × Int :=
  let h := hCoord coord
  let v := vCoord coord
  (1 + (5 * (h + 1) * (h + 1) + 3 * (h + 1) + 4).tmod 19, 1 + (4 * v * v + 2 * v - 4).tmod 19)

/-- The colour of a value of `curr_player`. -/
def colourOf (currPlayer : Nat) : Colour := if currPlayer = 0 then .black else .white

/-- An assignment to a cell. -/
def Map.set (map : Map) (row column : Nat) (c : Char) : Map := fun y x =>
  if y = row ∧ x = column then c else map y x

/-- `place`: the board and the mist after it; `none` if the cell is occupied. -/
def place (map : Map) (currPlayer : Nat) (coord : List Char) : Option (Map × (Int × Int)) :=
  if map (cellRow coord) (cellColumn coord) ≠ '.' then none
  else some (Map.set map (cellRow coord) (cellColumn coord) (colourOf currPlayer).key,
    mistCentre coord)

/-- What `view` prints. -/
def viewText (map : Map) (midMist : Int × Int) : List Char :=
  let row : Int := rows - midMist.2 - 1
  let column : Int := midMist.1 - 1
  let cells := (List.range 7).flatMap fun i => (List.range 7).map fun j =>
    let y := row - 3 + i
    let x := column - 3 + j
    if y < 0 ∨ rows - 2 < y ∨ x < 0 ∨ cols - 2 < x then 'x' else map y.toNat x.toNat
  [Char.ofNat (65 + column).toNat] ++ itoa midMist.2 ++ [','] ++ cstr cells ++ ['\n']

/-! ## 4. The loop -/

/-- The lines of the end of a game. -/
def farewell (result : List Char) (history : List Char) : List Char :=
  result ++ history ++ "\nThank you for playing!\n".toList

/-- A valid command has been executed: the three calls of `check_game_cond`, then the turn. -/
def finish (l : Locals) (s : Game) : Game :=
  if checkGameCond s.map l.first = 1 then
    { s.print (farewell "Black wins!\n".toList s.history) with status := .returned 0 }
  else if checkGameCond s.map l.second = 2 then
    { s.print (farewell "White wins!\n".toList s.history) with status := .returned 0 }
  else if checkGameCond s.map l.third = 3 then
    { s.print (farewell "Wow, a tie!\n".toList s.history) with status := .returned 0 }
  else if s.nextRound ≠ 0 then
    if s.currPlayer ≠ 0 then { s with currPlayer := 0, nextRound := 0 }
    else { s with currPlayer := 1, nextRound := 0 }
  else s

/-- The command `place`. -/
def placeCommand (l : Locals) (coord : List Char) (s : Game) : Game :=
  if coord = [] then s.print invalidText
  else if invalidCoord coord then s.print invalidCoordText
  else
    match place s.map s.currPlayer coord with
    | none => finish l (s.print "Occupied coordinate\n".toList)
    | some (map, midMist) =>
        finish l { s with map := map, midMist := midMist, history := s.history ++ coord,
                          nextRound := 1 }

/-- The commands, by the two entries of `player_argv`. -/
def command (l : Locals) (word coord : List Char) (s : Game) : Game :=
  if word = "who".toList then
    finish l (s.print (if s.currPlayer = 0 then "B\n".toList else "W\n".toList))
  else if word = "term".toList then { s with status := .returned 1 }
  else if word = "resign".toList then
    { s.print (farewell (if s.currPlayer = 0 then "White wins!\n".toList
        else "Black wins!\n".toList) s.history) with status := .returned 0 }
  else if word = "place".toList then placeCommand l coord s
  else if word = "history".toList then finish l (s.print (s.history ++ ['\n']))
  else if word = "view".toList then finish l (s.print (viewText s.map s.midMist))
  else s.print invalidText

/-- One iteration of the loop. -/
def iteration (l : Locals) (s : Game) : Game :=
  if s.stdin = [] then s.print invalidText
  else
    let line := (fgets (bufferLen - 1) s.stdin).1
    let s₁ := { s with stdin := (fgets (bufferLen - 1) s.stdin).2 }
    if overlong line then rejectLong line s₁
    else
      match inputProcessing line with
      | none => s₁.print invalidText
      | some (word, coord) => command l word coord s₁

/-- The loop; nothing once `main` has ended. -/
def step (s : Game) (l : Locals) : Game :=
  if s.status = .running then iteration l s else s

end SysProg.Gitm
