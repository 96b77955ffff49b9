/-
  File:      SysProg/Vm/Decode.lean
  Subject:   What the decoding of main makes of a word, against the formats of
             RV32I.

  * `getLsbD_signExtend`, `signExtend_eq` -- `sign_extend`, bit by bit, and on
    a number that fits its width;
  * `immI_eq`, `immS_eq` -- the immediates of loads and stores are those of
    the format;
  * `branchOffset_bit`, `branchOffset_eq_iff` -- the offset of a branch is
    not: `bit10to5` keeps four of its six bits, and the sign it then has runs
    over the bits above.
-/
import SysProg.Lib.Rv32i
import SysProg.Vm.Frame
import Mathlib.Tactic.IntervalCases

namespace SysProg.Vm

open Lib

/-! ## 1. The word of an iteration -/

theorem opcode_of_bits {inst : BitVec 32} {o : Opcode} (h : inst.extractLsb' 0 7 = o.bits) :
    opcode inst = some o := by
  unfold opcode
  rw [h]
  cases o <;> rfl

theorem step_running {s : Machine} (h : s.halted = false) :
    step s = execute (word s) (fetch s).2 := by
  rw [step, h, if_neg Bool.false_ne_true]

/-- The case of the `switch` for an opcode. -/
def execCase : Opcode → BitVec 32 → Machine → Machine
  | .opR => execR
  | .opI => execI
  | .opIMem => execIMem
  | .opIJmp => execIJmp
  | .opU => execU
  | .opS => execS
  | .opSb => execSb
  | .opUj => execUj

/-- **An iteration executes the case of its word.** -/
theorem step_case {s : Machine} {o : Opcode} (hrun : s.halted = false)
    (h : (word s).extractLsb' 0 7 = o.bits) : step s = execCase o (word s) (fetch s).2 := by
  rw [step_running hrun, execute, opcode_of_bits h]
  cases o <;> rfl

/-- A register field never names the program counter. -/
theorem regField_ne_rPc (inst : BitVec 32) (start : Nat) : regField inst start ≠ rPc := by
  intro h
  have hlt := (inst.extractLsb' start 5).isLt
  have hval : (inst.extractLsb' start 5).toNat = 32 := congrArg Fin.val h
  omega

theorem rd_ne_rPc (inst : BitVec 32) : rd inst ≠ rPc := regField_ne_rPc inst 7

theorem rs1_ne_rPc (inst : BitVec 32) : rs1 inst ≠ rPc := regField_ne_rPc inst 15

/-! ## 2. Sign extension -/

theorem getLsbD_signExtend (x : BitVec 32) (n : Nat) {i : Nat} (hi : i < 32) :
    (signExtend x n).getLsbD i = (x.getLsbD i || (decide (n ≤ i) && x.getLsbD (n - 1))) :=
  Rv32i.getLsbD_mask x hi

theorem signExtend_eq {n : Nat} (x : BitVec 32) (hn : 0 < n) (hx : x.toNat < 2 ^ n) :
    signExtend x n = (x.setWidth n).signExtend 32 :=
  Rv32i.signExtend_of_mask x hn hx

/-! ## 3. Immediates -/

theorem immI_eq (inst : BitVec 32) : immI inst = Rv32i.immI inst := by
  have hlt : (inst >>> 20).toNat < 2 ^ 12 := BitVec.toNat_ushiftRight_lt inst 20 (by decide)
  unfold immI
  rw [signExtend_eq _ (by decide) hlt]
  rfl

/-- The two fields of a store, put together. -/
theorem storeFields_eq (inst : BitVec 32) :
    (inst >>> 25 <<< 5) ||| ((inst >>> 7) &&& 31) = (Rv32i.offsetS inst).setWidth 32 := by
  have h31 : ∀ i < 32, (31 : BitVec 32).getLsbD i = decide (i < 5) := by decide
  apply BitVec.eq_of_getLsbD_eq
  intro i hi
  rw [BitVec.getLsbD_or, BitVec.getLsbD_shiftLeft, BitVec.getLsbD_and, BitVec.getLsbD_ushiftRight,
    BitVec.getLsbD_ushiftRight, h31 i hi, BitVec.getLsbD_setWidth, Rv32i.offsetS,
    BitVec.getLsbD_append, BitVec.getLsbD_extractLsb', BitVec.getLsbD_extractLsb']
  by_cases h5 : i < 5
  · simp [h5, hi]
  · by_cases h12 : i - 5 < 7
    · simp [h5, h12, hi]
    · rw [BitVec.getLsbD_of_ge inst (25 + (i - 5)) (by omega)]
      simp [h5]

theorem immS_eq (inst : BitVec 32) : immS inst = (Rv32i.offsetS inst).signExtend 32 := by
  have hlt : ((Rv32i.offsetS inst).setWidth 32).toNat < 2 ^ 12 := by
    rw [BitVec.toNat_setWidth]
    have := (Rv32i.offsetS inst).isLt
    omega
  unfold immS
  dsimp only
  rw [storeFields_eq, signExtend_eq _ (by decide) hlt,
    BitVec.setWidth_setWidth_of_le _ (by decide), BitVec.setWidth_eq]

/-! ## 4. The offset of a branch -/

/-- The bits of the offset main adds: those above bit 8 come from bit 28 of the word, the last of
    the four bits `bit10to5` keeps. -/
theorem branchOffset_bit (w : BitVec 32) (i : Nat) (hi : i < 32) :
    (branchOffset w).getLsbD i =
      if i = 0 then false
      else if i < 5 then w.getLsbD (7 + i)
      else if i < 9 then w.getLsbD (20 + i)
      else if i < 11 then w.getLsbD 28
      else if i = 11 then w.getLsbD 28 || w.getLsbD 7
      else w.getLsbD 28 || w.getLsbD 31 := by
  unfold branchOffset
  dsimp only
  rw [getLsbD_signExtend _ _ hi]
  interval_cases i <;>
    simp [BitVec.msb_eq_getLsbD_last, BitVec.getElem_signExtend, BitVec.getElem_shiftLeft,
      Bool.or_comm]

theorem offsetB_bit (w : BitVec 32) (i : Nat) (hi : i < 13) :
    (Rv32i.offsetB w).getLsbD i =
      if i = 0 then false
      else if i < 5 then w.getLsbD (7 + i)
      else if i < 11 then w.getLsbD (20 + i)
      else if i = 11 then w.getLsbD 7
      else w.getLsbD 31 := by
  unfold Rv32i.offsetB
  rw [BitVec.getLsbD_append, BitVec.getLsbD_append, BitVec.getLsbD_append, BitVec.getLsbD_append]
  interval_cases i <;> simp

/-- The bits of the offset of the format. -/
theorem immB_bit (w : BitVec 32) (i : Nat) (hi : i < 32) :
    (Rv32i.immB w).getLsbD i =
      if i = 0 then false
      else if i < 5 then w.getLsbD (7 + i)
      else if i < 11 then w.getLsbD (20 + i)
      else if i = 11 then w.getLsbD 7
      else w.getLsbD 31 := by
  unfold Rv32i.immB
  rw [BitVec.getLsbD_signExtend, decide_eq_true hi, Bool.true_and, BitVec.msb_eq_getLsbD_last]
  split
  · rename_i h13
    exact offsetB_bit w i h13
  · rename_i h13
    rw [offsetB_bit w (13 - 1) (by decide), if_neg (show ¬ i = 0 by omega),
      if_neg (show ¬ i < 5 by omega), if_neg (show ¬ i < 11 by omega),
      if_neg (show ¬ i = 11 by omega)]
    rfl

/-- The words whose offset survives: bits 28, 29 and 30 are equal, and if they are set so are bits
    7 and 31. -/
def OffsetKept (w : BitVec 32) : Prop :=
  w.getLsbD 29 = w.getLsbD 28 ∧ w.getLsbD 30 = w.getLsbD 28 ∧
    (w.getLsbD 28 = true → w.getLsbD 7 = true ∧ w.getLsbD 31 = true)

instance (w : BitVec 32) : Decidable (OffsetKept w) := inferInstanceAs (Decidable (_ ∧ _ ∧ _))

/-- **The offset of a branch is that of the format for exactly these words.** -/
theorem branchOffset_eq_iff (w : BitVec 32) : branchOffset w = Rv32i.immB w ↔ OffsetKept w := by
  constructor
  · intro h
    have hbit : ∀ i < 32, (branchOffset w).getLsbD i = (Rv32i.immB w).getLsbD i := by
      intro i _
      rw [h]
    -- the bits the two disagree on: 9 and 10, then 11, then 12
    have h9 := hbit 9 (by decide)
    have h10 := hbit 10 (by decide)
    have h11 := hbit 11 (by decide)
    have h12 := hbit 12 (by decide)
    rw [branchOffset_bit w _ (by decide), immB_bit w _ (by decide)] at h9 h10 h11 h12
    simp only [OfNat.ofNat_ne_zero, Nat.reduceEqDiff, Nat.reduceLT, Nat.reduceAdd, if_true, if_false]
      at h9 h10 h11 h12
    refine ⟨h9.symm, h10.symm, fun h28 => ?_⟩
    rw [h28, Bool.true_or] at h11 h12
    exact ⟨h11.symm, h12.symm⟩
  · intro h
    obtain ⟨h29, h30, h28⟩ := h
    have hor : ∀ k, (w.getLsbD 28 = true → w.getLsbD k = true) →
        (w.getLsbD 28 || w.getLsbD k) = w.getLsbD k := fun k hk => Bool.or_eq_right_iff_imp.mpr hk
    apply BitVec.eq_of_getLsbD_eq
    intro i hi
    rw [branchOffset_bit w i hi, immB_bit w i hi, hor 7 fun h => (h28 h).1,
      hor 31 fun h => (h28 h).2]
    by_cases h9 : i = 9
    · subst h9
      exact h29.symm
    by_cases h10 : i = 10
    · subst h10
      exact h30.symm
    have hle : i < 11 ↔ i < 9 := by omega
    simp only [hle]
    by_cases hlt : i < 9
    · simp only [hlt, if_true]
    · simp only [hlt, if_false]

end SysProg.Vm
