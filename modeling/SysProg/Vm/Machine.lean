/-
  File:      SysProg/Vm/Machine.lean
  Subject:   The machine of vm_riskxvii.c: registers, memory, input, output.

  `reg` has 33 entries; the last is the program counter. `memory` is the
  memory from the array on: what lies behind its 65536 bytes is there too, so
  that an access beyond the end reads and writes something, but never a
  register. `touched` records every byte index that is accessed.

  A character is a byte, as in CString.lean. `getchar` and `scanf` change the
  input and deliver their result.

  * the `@[simp]` lemmas of the primitives, field by field;
  * `memRead_snd`, `memWrite_touched` -- which bytes the loops of `mem_read`
    and `mem_write` touch;
  * `regWrite_reg_zero`, `regWrite_reg_of_ne` -- the guard of `reg_write`.
-/
import SysProg.Lib.CString
import Mathlib.Logic.Function.Basic

namespace SysProg.Vm

open Lib

/-! ## 1. The state -/

def memoryMax : Nat := 2 ^ 16

/-- An index into `reg`. -/
abbrev Reg := Fin 33

/-- `R_PC`. -/
def rPc : Reg := 32

structure Machine where
  memory : Nat → BitVec 8
  reg : Reg → BitVec 32
  stdin : List Char
  stdout : List Char
  halted : Bool
  touched : List Nat

namespace Machine

/-- A byte of memory is read. -/
def touch (s : Machine) (k : Nat) : Machine := { s with touched := s.touched ++ [k] }

/-- A byte of memory is written. -/
def poke (s : Machine) (k : Nat) (b : BitVec 8) : Machine :=
  { s with memory := Function.update s.memory k b, touched := s.touched ++ [k] }

/-- A register or the program counter is assigned. -/
def setReg (s : Machine) (r : Reg) (value : BitVec 32) : Machine :=
  { s with reg := Function.update s.reg r value }

def print (s : Machine) (text : List Char) : Machine := { s with stdout := s.stdout ++ text }

def pc (s : Machine) : BitVec 32 := s.reg rPc

/-- `reg[R_PC] += 0x4`. -/
def advance (s : Machine) : Machine := s.setReg rPc (s.pc + 4)

section Fields

variable (s : Machine) (k : Nat) (b : BitVec 8) (r : Reg) (value : BitVec 32) (text : List Char)

@[simp] theorem touch_touched : (s.touch k).touched = s.touched ++ [k] := rfl
@[simp] theorem poke_reg : (s.poke k b).reg = s.reg := rfl
@[simp] theorem poke_touched : (s.poke k b).touched = s.touched ++ [k] := rfl
@[simp] theorem print_touched : (s.print text).touched = s.touched := rfl
@[simp] theorem advance_touched : s.advance.touched = s.touched := rfl

@[simp] theorem setReg_reg_self : (s.setReg r value).reg r = value := by
  unfold setReg
  exact Function.update_self ..

@[simp] theorem setPc_pc : (s.setReg rPc value).pc = value := s.setReg_reg_self rPc value
@[simp] theorem advance_pc : s.advance.pc = s.pc + 4 := s.setPc_pc _
@[simp] theorem advance_memory : s.advance.memory = s.memory := rfl

theorem setReg_reg_of_ne {r q : Reg} (h : q ≠ r) : (s.setReg r value).reg q = s.reg q :=
  Function.update_of_ne h _ _

theorem advance_reg_of_ne {r : Reg} (h : r ≠ rPc) : s.advance.reg r = s.reg r :=
  s.setReg_reg_of_ne _ h

end Fields

end Machine

/-! ## 2. The functions above main -/

/-- `sign_extend`. -/
def signExtend (x : BitVec 32) (bitCount : Nat) : BitVec 32 :=
  if (x >>> (bitCount - 1)) &&& 1 ≠ 0 then x ||| (0xFFFFFFFF#32 <<< bitCount) else x

/-- The first loop of `mem_write`, from byte `i` on, `n` rounds. -/
def writeBytes (address : Nat) (data : BitVec 32) : Nat → Nat → Machine → Machine
  | _, 0, s => s
  | i, n + 1, s =>
      writeBytes address data (i + 1) n (s.poke (address + i) ((data >>> (i * 8)).setWidth 8))

/-- The second loop of `mem_write`, from `j` on, `n` rounds. -/
def clearBytes (start : Nat) : Nat → Nat → Machine → Machine
  | _, 0, s => s
  | j, n + 1, s => clearBytes start (j + 1) n (s.poke (start + j) 0)

def memWrite (s : Machine) (address : BitVec 16) (data : BitVec 32) (byteLen : Nat) : Machine :=
  let s₁ := writeBytes address.toNat data 0 byteLen s
  if byteLen < 4 then clearBytes (address.toNat + (4 - byteLen)) 0 byteLen s₁ else s₁

/-- The loop of `mem_read`, `n` rounds before the last byte: round `i` of the source reads the
    byte `byte_len - i - 1`, which is `n` here. -/
def readBytes (address : Nat) : Nat → BitVec 32 → Machine → BitVec 32 × Machine
  | 0, result, s => (result, s)
  | n + 1, result, s =>
      readBytes address n (result ||| ((s.memory (address + n)).setWidth 32 <<< (n * 8)))
        (s.touch (address + n))

def memRead (s : Machine) (address : BitVec 16) (byteLen : Nat) : BitVec 32 × Machine :=
  readBytes address.toNat byteLen 0 s

def regWrite (s : Machine) (index : Reg) (value : BitVec 32) : Machine :=
  if index ≠ 0 then s.setReg index value else s

/-! ## 3. Input and output -/

/-- `getchar`; -1 at the end of the input. -/
def getchar (s : Machine) : BitVec 32 × Machine :=
  match s.stdin with
  | [] => (-1, s)
  | c :: cs => (BitVec.ofNat 32 c.toNat, { s with stdin := cs })

/-- The input behind an optional sign. -/
def skipSign : List Char → List Char
  | '-' :: cs => cs
  | '+' :: cs => cs
  | cs => cs

/-- `scanf` with `%d`: nothing is stored if no number follows. -/
def scanfInt (s : Machine) : Option (BitVec 32) × Machine :=
  let input := s.stdin.dropWhile isspace
  let rest := skipSign input
  if rest.takeWhile isdigit = [] then (none, { s with stdin := rest })
  else (some (BitVec.ofInt 32 (atoi input)), { s with stdin := rest.dropWhile isdigit })

/-- `%c`. -/
def formatChar (x : BitVec 32) : List Char := [Char.ofNat (x.toNat % 256)]

/-- `%d`. -/
def formatInt (x : BitVec 32) : List Char := itoa x.toInt

/-- `%x`. -/
def formatHex (x : BitVec 32) : List Char := Nat.toDigits 16 x.toNat

/-! ## 4. What the loops over memory leave -/

@[simp]
theorem writeBytes_reg (address : Nat) (data : BitVec 32) :
    ∀ (i n : Nat) (s : Machine), (writeBytes address data i n s).reg = s.reg
  | _, 0, _ => rfl
  | i, n + 1, s => (writeBytes_reg address data (i + 1) n _).trans (s.poke_reg _ _)

theorem writeBytes_touched (address : Nat) (data : BitVec 32) :
    ∀ (i n : Nat) (s : Machine), (writeBytes address data i n s).touched
      = s.touched ++ (List.range' i n).map (address + ·)
  | _, 0, _ => (List.append_nil _).symm
  | i, n + 1, s => by
      rw [writeBytes, writeBytes_touched address data (i + 1) n, Machine.poke_touched,
        List.range'_succ, List.map_cons, List.append_assoc]
      rfl

@[simp]
theorem clearBytes_reg (start : Nat) :
    ∀ (j n : Nat) (s : Machine), (clearBytes start j n s).reg = s.reg
  | _, 0, _ => rfl
  | j, n + 1, s => (clearBytes_reg start (j + 1) n _).trans (s.poke_reg _ _)

theorem clearBytes_touched (start : Nat) :
    ∀ (j n : Nat) (s : Machine), (clearBytes start j n s).touched
      = s.touched ++ (List.range' j n).map (start + ·)
  | _, 0, _ => (List.append_nil _).symm
  | j, n + 1, s => by
      rw [clearBytes, clearBytes_touched start (j + 1) n, Machine.poke_touched,
        List.range'_succ, List.map_cons, List.append_assoc]
      rfl

@[simp]
theorem memWrite_reg (s : Machine) (address : BitVec 16) (data : BitVec 32) (byteLen : Nat) :
    (memWrite s address data byteLen).reg = s.reg := by
  unfold memWrite
  split
  · rw [clearBytes_reg, writeBytes_reg]
  · rw [writeBytes_reg]

/-- `mem_write` touches the bytes it writes, and those it clears. -/
theorem memWrite_touched (s : Machine) (address : BitVec 16) (data : BitVec 32) (byteLen : Nat) :
    (memWrite s address data byteLen).touched
      = s.touched ++ (List.range' 0 byteLen).map (address.toNat + ·)
        ++ (if byteLen < 4 then
              (List.range' 0 byteLen).map (address.toNat + (4 - byteLen) + ·)
            else []) := by
  unfold memWrite
  split
  · rw [clearBytes_touched, writeBytes_touched]
  · rw [writeBytes_touched, List.append_nil]

/-- Reading leaves everything but the log. -/
theorem readBytes_snd (address n : Nat) (result : BitVec 32) (s : Machine) :
    (readBytes address n result s).2
      = { s with touched := s.touched ++ (List.range n).reverse.map (address + ·) } := by
  induction n generalizing result s with
  | zero =>
      show s = _
      rw [List.range_zero, List.reverse_nil, List.map_nil, List.append_nil]
  | succ n ih =>
      rw [readBytes, ih, List.range_succ, List.reverse_append,
        List.map_append, Machine.touch_touched, List.append_assoc]
      rfl

theorem memRead_snd (s : Machine) (address : BitVec 16) (byteLen : Nat) :
    (memRead s address byteLen).2
      = { s with touched :=
            s.touched ++ (List.range byteLen).reverse.map (address.toNat + ·) } :=
  readBytes_snd _ _ _ _

@[simp]
theorem memRead_memory (s : Machine) (address : BitVec 16) (byteLen : Nat) :
    (memRead s address byteLen).2.memory = s.memory := by
  rw [memRead_snd]

@[simp]
theorem memRead_reg (s : Machine) (address : BitVec 16) (byteLen : Nat) :
    (memRead s address byteLen).2.reg = s.reg := by
  rw [memRead_snd]

@[simp]
theorem getchar_memory (s : Machine) : (getchar s).2.memory = s.memory := by
  unfold getchar
  split <;> rfl

@[simp]
theorem getchar_reg (s : Machine) : (getchar s).2.reg = s.reg := by
  unfold getchar
  split <;> rfl

@[simp]
theorem getchar_touched (s : Machine) : (getchar s).2.touched = s.touched := by
  unfold getchar
  split <;> rfl

@[simp]
theorem scanfInt_memory (s : Machine) : (scanfInt s).2.memory = s.memory := by
  unfold scanfInt
  dsimp only
  split <;> rfl

@[simp]
theorem scanfInt_reg (s : Machine) : (scanfInt s).2.reg = s.reg := by
  unfold scanfInt
  dsimp only
  split <;> rfl

@[simp]
theorem scanfInt_touched (s : Machine) : (scanfInt s).2.touched = s.touched := by
  unfold scanfInt
  dsimp only
  split <;> rfl

@[simp]
theorem regWrite_memory (s : Machine) (index : Reg) (value : BitVec 32) :
    (regWrite s index value).memory = s.memory := by
  unfold regWrite
  split <;> rfl

@[simp]
theorem regWrite_touched (s : Machine) (index : Reg) (value : BitVec 32) :
    (regWrite s index value).touched = s.touched := by
  unfold regWrite
  split <;> rfl

theorem regWrite_reg_self (s : Machine) {index : Reg} (value : BitVec 32) (h : index ≠ 0) :
    (regWrite s index value).reg index = value := by
  rw [regWrite, if_pos h, Machine.setReg_reg_self]

/-- `reg_write` leaves every register but the one it names. -/
theorem regWrite_reg_of_ne (s : Machine) {index q : Reg} (value : BitVec 32) (h : q ≠ index) :
    (regWrite s index value).reg q = s.reg q := by
  unfold regWrite
  split
  · exact s.setReg_reg_of_ne value h
  · rfl

/-- `reg_write` never writes register 0. -/
theorem regWrite_reg_zero (s : Machine) (index : Reg) (value : BitVec 32) :
    (regWrite s index value).reg 0 = s.reg 0 := by
  unfold regWrite
  split
  · rename_i h
    exact s.setReg_reg_of_ne value (Ne.symm h)
  · rfl

end SysProg.Vm
