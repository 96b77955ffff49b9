/-
  File:      SysProg/Lib/Rv32i.lean
  Subject:   THE BASE INSTRUCTION SET RV32I, as far as arithmetic, memory,
             branches and jumps go: which word encodes which operation, and
             what the operation is to compute. No machine: registers and
             memory belong to whoever executes the words.

  * `ROp`, `IOp` -- the register-register and register-immediate operations,
    their encoding (`EncodedBy`) and their result;
  * `Width`, `LoadOp`, `Stores` -- stores and loads, by the number of bytes
    they move, and what a store is to change;
  * `BOp` -- the branches, and which is the opposite of which;
  * `immI`, `offsetS`, `offsetI`, `immB`, `immJ`, `immU` -- the immediates of
    the formats;
  * `constHi_add_constLo` -- the parts of a constant that `LUI` and `ADDI` put
    together;
  * `signExtend_of_mask` -- the usual C idiom for a sign extension is one.
-/
import Mathlib.Algebra.Group.Nat.Even

namespace SysProg.Lib.Rv32i

/-! ## 1. Register-register operations -/

inductive ROp where
  | add
  | sub
  | xor
  | or
  | and
  | sll
  | srl
  | sra
  | slt
  | sltu
  deriving DecidableEq, Repr

namespace ROp

def funct3 : ROp → BitVec 3
  | add => 0b000
  | sub => 0b000
  | sll => 0b001
  | slt => 0b010
  | sltu => 0b011
  | xor => 0b100
  | srl => 0b101
  | sra => 0b101
  | or => 0b110
  | and => 0b111

def funct7 : ROp → BitVec 7
  | sub => 0b0100000
  | sra => 0b0100000
  | _ => 0b0000000

def EncodedBy (op : ROp) (w : BitVec 32) : Prop :=
  w.extractLsb' 0 7 = 0b0110011 ∧ w.extractLsb' 12 3 = op.funct3 ∧ w.extractLsb' 25 7 = op.funct7

instance (op : ROp) (w : BitVec 32) : Decidable (op.EncodedBy w) :=
  inferInstanceAs (Decidable (_ ∧ _ ∧ _))

/-- The shifts take their amount from the low five bits of `b`. -/
def result (op : ROp) (a b : BitVec 32) : BitVec 32 :=
  match op with
  | add => a + b
  | sub => a - b
  | xor => a ^^^ b
  | or => a ||| b
  | and => a &&& b
  | sll => a <<< (b.toNat % 32)
  | srl => a >>> (b.toNat % 32)
  | sra => a.sshiftRight (b.toNat % 32)
  | slt => if a.slt b then 1 else 0
  | sltu => if a < b then 1 else 0

def isShift : ROp → Bool
  | sll => true
  | srl => true
  | sra => true
  | _ => false

end ROp

/-! ## 2. Register-immediate operations -/

inductive IOp where
  | addi
  | xori
  | ori
  | andi
  | slti
  | sltiu
  deriving DecidableEq, Repr

/-- The immediate of an I-format word. -/
def immI (w : BitVec 32) : BitVec 32 := (w.extractLsb' 20 12).signExtend 32

namespace IOp

def funct3 : IOp → BitVec 3
  | addi => 0b000
  | slti => 0b010
  | sltiu => 0b011
  | xori => 0b100
  | ori => 0b110
  | andi => 0b111

def EncodedBy (op : IOp) (w : BitVec 32) : Prop :=
  w.extractLsb' 0 7 = 0b0010011 ∧ w.extractLsb' 12 3 = op.funct3

instance (op : IOp) (w : BitVec 32) : Decidable (op.EncodedBy w) :=
  inferInstanceAs (Decidable (_ ∧ _))

/-- `imm` is the immediate, extended to 32 bits. -/
def result (op : IOp) (a imm : BitVec 32) : BitVec 32 :=
  match op with
  | addi => a + imm
  | xori => a ^^^ imm
  | ori => a ||| imm
  | andi => a &&& imm
  | slti => if a.slt imm then 1 else 0
  | sltiu => if a < imm then 1 else 0

end IOp

/-! ## 3. Loads and stores -/

/-- The twelve bits of the offset of a store. -/
def offsetS (w : BitVec 32) : BitVec 12 := w.extractLsb' 25 7 ++ w.extractLsb' 7 5

/-- The twelve bits of the offset of a load. -/
def offsetI (w : BitVec 32) : BitVec 12 := w.extractLsb' 20 12

/-- How much a load or a store moves. -/
inductive Width where
  | byte
  | half
  | word
  deriving DecidableEq, Repr

namespace Width

def bytes : Width → Nat
  | byte => 1
  | half => 2
  | word => 4

/-- `funct3` of the store, and of the load that extends the sign. -/
def funct3 : Width → BitVec 3
  | byte => 0b000
  | half => 0b001
  | word => 0b010

/-- The word is the store of that width. -/
def StoredBy (n : Width) (w : BitVec 32) : Prop :=
  w.extractLsb' 0 7 = 0b0100011 ∧ w.extractLsb' 12 3 = n.funct3

instance (n : Width) (w : BitVec 32) : Decidable (n.StoredBy w) :=
  inferInstanceAs (Decidable (_ ∧ _))

end Width

/-- The five loads. -/
inductive LoadOp where
  | lb
  | lh
  | lw
  | lbu
  | lhu
  deriving DecidableEq, Repr

namespace LoadOp

def width : LoadOp → Width
  | lb => .byte
  | lh => .half
  | lw => .word
  | lbu => .byte
  | lhu => .half

def funct3 : LoadOp → BitVec 3
  | lb => 0b000
  | lh => 0b001
  | lw => 0b010
  | lbu => 0b100
  | lhu => 0b101

def EncodedBy (op : LoadOp) (w : BitVec 32) : Prop :=
  w.extractLsb' 0 7 = 0b0000011 ∧ w.extractLsb' 12 3 = op.funct3

instance (op : LoadOp) (w : BitVec 32) : Decidable (op.EncodedBy w) :=
  inferInstanceAs (Decidable (_ ∧ _))

/-- What the load makes of a value whose low bytes are in memory. -/
def extend (op : LoadOp) (v : BitVec 32) : BitVec 32 :=
  match op with
  | lb => (v.setWidth 8).signExtend 32
  | lh => (v.setWidth 16).signExtend 32
  | lw => v
  | lbu => (v.setWidth 8).setWidth 32
  | lhu => (v.setWidth 16).setWidth 32

end LoadOp

/-- Byte `i` of a word, the lowest first. -/
def byteOf (v : BitVec 32) (i : Nat) : BitVec 8 := v.extractLsb' (8 * i) 8

/-- **A store of width `n` at `a` changes exactly the bytes it names.** -/
structure Stores (n : Width) (a : Nat) (v : BitVec 32) (m m' : Nat → BitVec 8) : Prop where
  named : ∀ i < n.bytes, m' (a + i) = byteOf v i
  others : ∀ k, (k < a ∨ a + n.bytes ≤ k) → m' k = m k

/-! ## 4. Branches -/

/-- The offset of a B-format word: bits 12, 11, 10..5, 4..1, and bit 0 zero. -/
def offsetB (w : BitVec 32) : BitVec 13 :=
  w.extractLsb' 31 1 ++ w.extractLsb' 7 1 ++ w.extractLsb' 25 6 ++ w.extractLsb' 8 4 ++ 0#1

def immB (w : BitVec 32) : BitVec 32 := (offsetB w).signExtend 32

/-- The six branches. -/
inductive BOp where
  | beq
  | bne
  | blt
  | bge
  | bltu
  | bgeu
  deriving DecidableEq, Repr

namespace BOp

def funct3 : BOp → BitVec 3
  | beq => 0b000
  | bne => 0b001
  | blt => 0b100
  | bge => 0b101
  | bltu => 0b110
  | bgeu => 0b111

def EncodedBy (op : BOp) (w : BitVec 32) : Prop :=
  w.extractLsb' 0 7 = 0b1100011 ∧ w.extractLsb' 12 3 = op.funct3

instance (op : BOp) (w : BitVec 32) : Decidable (op.EncodedBy w) :=
  inferInstanceAs (Decidable (_ ∧ _))

/-- The branch that is to be taken exactly if this one is not. -/
def opposite : BOp → BOp
  | beq => bne
  | bne => beq
  | blt => bge
  | bge => blt
  | bltu => bgeu
  | bgeu => bltu

end BOp

/-! ## 5. Jumps and constants -/

/-- The offset of a J-format word: bits 20, 19..12, 11, 10..1, and bit 0 zero. -/
def offsetJ (w : BitVec 32) : BitVec 21 :=
  w.extractLsb' 31 1 ++ w.extractLsb' 12 8 ++ w.extractLsb' 20 1 ++ w.extractLsb' 21 10 ++ 0#1

def immJ (w : BitVec 32) : BitVec 32 := (offsetJ w).signExtend 32

/-- The constant of a U-format word: its upper 20 bits, and twelve zero bits. -/
def immU (w : BitVec 32) : BitVec 32 := w.extractLsb' 12 20 ++ 0#12

def IsJal (w : BitVec 32) : Prop := w.extractLsb' 0 7 = 0b1101111

def IsJalr (w : BitVec 32) : Prop := w.extractLsb' 0 7 = 0b1100111 ∧ w.extractLsb' 12 3 = 0b000

def IsLui (w : BitVec 32) : Prop := w.extractLsb' 0 7 = 0b0110111

instance (w : BitVec 32) : Decidable (IsJal w) := inferInstanceAs (Decidable (_ = _))
instance (w : BitVec 32) : Decidable (IsJalr w) := inferInstanceAs (Decidable (_ ∧ _))
instance (w : BitVec 32) : Decidable (IsLui w) := inferInstanceAs (Decidable (_ = _))

/-- The low twelve bits of a constant, which `ADDI` adds as a signed number. -/
def constLo (c : BitVec 32) : BitVec 12 := c.extractLsb' 0 12

/-- What `LUI` has to leave for it. -/
def constHi (c : BitVec 32) : BitVec 20 := (c - (constLo c).signExtend 32).extractLsb' 12 20

theorem setWidth_constLo (c : BitVec 32) :
    ((constLo c).signExtend 32).setWidth 12 = c.setWidth 12 := by
  apply BitVec.eq_of_getLsbD_eq
  intro i hi
  rw [BitVec.getLsbD_setWidth, BitVec.getLsbD_signExtend, BitVec.getLsbD_setWidth, constLo,
    BitVec.getLsbD_extractLsb', if_pos hi, decide_eq_true hi, decide_eq_true (show i < 32 by omega),
    Nat.zero_add]
  simp

/-- Without its low part a constant ends in twelve zero bits. -/
theorem constHi_append (c : BitVec 32) : constHi c ++ 0#12 = c - (constLo c).signExtend 32 := by
  have hlow : (c - (constLo c).signExtend 32).extractLsb' 0 12 = 0#12 := by
    rw [← BitVec.setWidth_eq_extractLsb' (by decide), BitVec.sub_eq_add_neg,
      BitVec.setWidth_add _ _ (by decide), BitVec.setWidth_neg_of_le (by decide), setWidth_constLo,
      ← BitVec.sub_eq_add_neg, BitVec.sub_self]
  rw [constHi, ← hlow, BitVec.extractLsb'_append_extractLsb'_eq_extractLsb' (by decide)]
  exact BitVec.extractLsb'_eq_self

/-- **The two parts make the constant.** -/
theorem constHi_add_constLo (c : BitVec 32) :
    (constHi c ++ 0#12) + (constLo c).signExtend 32 = c := by
  rw [constHi_append]
  exact BitVec.sub_add_cancel _ _

/-! ## 6. Sign extension with a mask -/

/-- The bits of a word in which all bits from `n` on have been set if bit `n - 1` is. -/
theorem getLsbD_mask {n : Nat} (x : BitVec 32) {i : Nat} (hi : i < 32) :
    (if (x >>> (n - 1)) &&& 1 ≠ 0 then x ||| (0xFFFFFFFF#32 <<< n) else x).getLsbD i
      = (x.getLsbD i || (decide (n ≤ i) && x.getLsbD (n - 1))) := by
  have hbit : ((x >>> (n - 1)) &&& 1#32 ≠ 0) ↔ x.getLsbD (n - 1) = true := by
    rw [BitVec.and_one_eq_setWidth_ofBool_getLsbD, BitVec.getLsbD_ushiftRight, Nat.add_zero]
    cases x.getLsbD (n - 1) <;> decide
  split
  · rename_i hb
    rw [hbit.mp hb, BitVec.getLsbD_or, BitVec.getLsbD_shiftLeft]
    by_cases hni : n ≤ i
    · have hones : (0xFFFFFFFF#32).getLsbD (i - n) = true := by
        rw [show 0xFFFFFFFF#32 = BitVec.allOnes 32 from rfl, BitVec.getLsbD_allOnes]
        exact decide_eq_true (by omega)
      rw [hones, decide_eq_true hi, decide_eq_true hni, decide_eq_false (by omega)]
      rfl
    · rw [decide_eq_false hni, decide_eq_true (show i < n by omega)]
      simp
  · rename_i hb
    cases h : x.getLsbD (n - 1) with
    | false => simp
    | true => exact absurd (hbit.mpr h) hb

/-- On an `n`-bit number that is its sign extension. -/
theorem signExtend_of_mask {n : Nat} (x : BitVec 32) (hn : 0 < n) (hx : x.toNat < 2 ^ n) :
    (if (x >>> (n - 1)) &&& 1 ≠ 0 then x ||| (0xFFFFFFFF#32 <<< n) else x)
      = (x.setWidth n).signExtend 32 := by
  have hmsb : (x.setWidth n).msb = x.getLsbD (n - 1) := by
    rw [BitVec.msb_eq_getLsbD_last, BitVec.getLsbD_setWidth, decide_eq_true (by omega),
      Bool.true_and]
  apply BitVec.eq_of_getLsbD_eq
  intro i hi
  rw [getLsbD_mask x hi, BitVec.getLsbD_signExtend, hmsb, BitVec.getLsbD_setWidth,
    decide_eq_true hi, Bool.true_and]
  by_cases hin : i < n
  · rw [if_pos hin, decide_eq_true hin, decide_eq_false (by omega)]
    simp
  · have hhigh : x.getLsbD i = false :=
      Nat.testBit_lt_two_pow (Nat.lt_of_lt_of_le hx (Nat.pow_le_pow_right (by omega) (by omega)))
    rw [if_neg hin, hhigh, decide_eq_true (show n ≤ i by omega)]
    rfl

end SysProg.Lib.Rv32i
