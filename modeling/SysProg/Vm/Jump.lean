/-
  File:      SysProg/Vm/Jump.lean
  Subject:   JUMPS AND CONSTANTS: what JALR, JAL and LUI leave, against the
             instruction set.

  * `jalr_iff` -- JALR writes its link before it reads its base, so it goes
    wrong exactly where the two are one register that does not hold the link
    already;
  * `jumpOffset_bit`, `jal_iff` -- the offset of JAL is extended from bit 18
    instead of bit 20;
  * `upper_bit`, `constant_iff` -- LUI extends its twenty bits from the
    twelfth, so the pair of LUI and ADDI makes a constant exactly if that bit
    is clear or all bits above it are set.
-/
import SysProg.Vm.Alu

namespace SysProg.Vm

open Lib

/-! ## 1. Jump and link register -/

section Jalr

variable (inst : BitVec 32) (s : Machine)

/-- The register JALR takes its target from, as it is after the link has been written. -/
def jalrBase : BitVec 32 :=
  if rd inst = rs1 inst ∧ (rd inst).val ≠ 0 then s.pc + 4 else s.reg (rs1 inst)

theorem execIJmp_pc : (execIJmp inst s).pc = jalrBase inst s + Rv32i.immI inst := by
  unfold execIJmp jalrBase
  dsimp only
  rw [Machine.setPc_pc, immI_eq]
  by_cases h0 : rd inst = 0
  · rw [regWrite, if_neg (not_not_intro h0), if_neg (fun h => h.2 (congrArg Fin.val h0))]
  · rw [regWrite_reg s _ h0]
    by_cases h1 : rd inst = rs1 inst
    · rw [if_pos h1, if_pos ⟨h1, fun e => h0 (Fin.ext e)⟩]
    · rw [if_neg h1, if_neg (fun h => h1 h.1)]

/-- The link of a jump survives the assignment of the program counter. -/
theorem link_reg (hrd : rd inst ≠ 0) (link target : BitVec 32) :
    ((regWrite s (rd inst) link).setReg rPc target).reg (rd inst) = link := by
  rw [Machine.setReg_reg_of_ne _ _ (rd_ne_rPc inst), regWrite_reg_self s _ hrd]

end Jalr

/-- **Jump and link register**, one iteration. -/
theorem jalr_iff (s : Machine) (hrun : s.halted = false)
    (h : (word s).extractLsb' 0 7 = 0b1100111) :
    ((step s).pc = s.reg (rs1 (word s)) + Rv32i.immI (word s) ∧
      (rd (word s) ≠ 0 → (step s).reg (rd (word s)) = s.pc + 4)) ↔
    (rd (word s) = 0 ∨ rd (word s) ≠ rs1 (word s) ∨ s.reg (rs1 (word s)) = s.pc + 4) := by
  have hstep : step s = execIJmp (word s) (fetch s).2 := step_case (o := .opIJmp) hrun h
  have hlink : rd (word s) ≠ 0 → (step s).reg (rd (word s)) = s.pc + 4 := by
    intro hrd
    rw [hstep, execIJmp, fetch_pc, link_reg _ _ hrd]
  rw [and_iff_left hlink, hstep, execIJmp_pc, BitVec.add_left_inj, jalrBase, fetch_pc, fetch_reg]
  by_cases h0 : rd (word s) = 0
  · simp [h0]
  · by_cases h1 : rd (word s) = rs1 (word s)
    · rw [if_pos ⟨h1, fun e => h0 (Fin.ext e)⟩, or_iff_right h0, or_iff_right (not_not_intro h1)]
      exact eq_comm
    · simp [h1]

/-- `JALR x1, x2, 4`. -/
theorem jalr_iff_call :
    let s := boot (fun _ => 0) [0xE7, 0x00, 0x41, 0x00] []
    (step s).pc = s.reg (rs1 (word s)) + Rv32i.immI (word s) ∧
      (rd (word s) ≠ 0 → (step s).reg (rd (word s)) = s.pc + 4) := by
  intro s
  have h := jalr_iff s rfl (by decide +kernel)
  exact h.mpr (Or.inr (Or.inl (by decide +kernel)))

/-- `JALR x1, x1, 0` at 0 with 0 in the register: the jump goes to 4. -/
theorem jalr_overwritten :
    ¬ ∀ s : Machine, s.halted = false → (word s).extractLsb' 0 7 = 0b1100111 →
      (step s).pc = s.reg (rs1 (word s)) + Rv32i.immI (word s) ∧
        (rd (word s) ≠ 0 → (step s).reg (rd (word s)) = s.pc + 4) := by
  intro h
  have h0 := h (boot (fun _ => 0) [0xE7, 0x80, 0x00, 0x00] []) rfl (by decide +kernel)
  exact absurd h0.1 (by decide +kernel)

/-! ## 2. Jump and link -/

/-- The bits of the offset main adds: those above bit 18 are set if bit 18 is. -/
theorem jumpOffset_bit (w : BitVec 32) (i : Nat) (hi : i < 32) :
    (jumpOffset w).getLsbD i =
      if i = 0 then false
      else if i < 11 then w.getLsbD (20 + i)
      else if i = 11 then w.getLsbD 20
      else if i < 19 then w.getLsbD i
      else if i = 19 then w.getLsbD 19 || w.getLsbD 18
      else if i = 20 then w.getLsbD 31 || w.getLsbD 18
      else w.getLsbD 18 := by
  unfold jumpOffset
  dsimp only
  rw [getLsbD_signExtend _ _ hi]
  interval_cases i <;> simp

theorem offsetJ_bit (w : BitVec 32) (i : Nat) (hi : i < 21) :
    (Rv32i.offsetJ w).getLsbD i =
      if i = 0 then false
      else if i < 11 then w.getLsbD (20 + i)
      else if i = 11 then w.getLsbD 20
      else if i < 20 then w.getLsbD i
      else w.getLsbD 31 := by
  unfold Rv32i.offsetJ
  rw [BitVec.getLsbD_append, BitVec.getLsbD_append, BitVec.getLsbD_append, BitVec.getLsbD_append]
  interval_cases i <;> simp

/-- The bits of the offset of the format. -/
theorem immJ_bit (w : BitVec 32) (i : Nat) (hi : i < 32) :
    (Rv32i.immJ w).getLsbD i =
      if i = 0 then false
      else if i < 11 then w.getLsbD (20 + i)
      else if i = 11 then w.getLsbD 20
      else if i < 20 then w.getLsbD i
      else w.getLsbD 31 := by
  unfold Rv32i.immJ
  rw [BitVec.getLsbD_signExtend, decide_eq_true hi, Bool.true_and, BitVec.msb_eq_getLsbD_last]
  split
  · rename_i h21
    exact offsetJ_bit w i h21
  · rename_i h21
    rw [offsetJ_bit w (21 - 1) (by decide), if_neg (show ¬ i = 0 by omega),
      if_neg (show ¬ i < 11 by omega), if_neg (show ¬ i = 11 by omega),
      if_neg (show ¬ i < 20 by omega)]
    rfl

/-- The words whose jump goes where the format says: bit 18 is the sign, and if it is set so is
    bit 19. -/
def JumpKept (w : BitVec 32) : Prop :=
  w.getLsbD 18 = w.getLsbD 31 ∧ (w.getLsbD 18 = true → w.getLsbD 19 = true)

instance (w : BitVec 32) : Decidable (JumpKept w) := inferInstanceAs (Decidable (_ ∧ _))

/-- **The offset of a jump is that of the format for exactly these words.** -/
theorem jumpOffset_eq_iff (w : BitVec 32) : jumpOffset w = Rv32i.immJ w ↔ JumpKept w := by
  constructor
  · intro h
    have hbit : ∀ i < 32, (jumpOffset w).getLsbD i = (Rv32i.immJ w).getLsbD i := by
      intro i _
      rw [h]
    have h19 := hbit 19 (by decide)
    have h21 := hbit 21 (by decide)
    rw [jumpOffset_bit w _ (by decide), immJ_bit w _ (by decide)] at h19 h21
    simp only [OfNat.ofNat_ne_zero, Nat.reduceEqDiff, Nat.reduceLT, if_true, if_false] at h19 h21
    refine ⟨h21, fun h18 => ?_⟩
    rw [h18, Bool.or_true] at h19
    exact h19.symm
  · intro h
    obtain ⟨h31, h19⟩ := h
    have hor : (w.getLsbD 19 || w.getLsbD 18) = w.getLsbD 19 := Bool.or_eq_left_iff_imp.mpr h19
    apply BitVec.eq_of_getLsbD_eq
    intro i hi
    rw [jumpOffset_bit w i hi, immJ_bit w i hi, hor, h31, Bool.or_self, ite_self]
    by_cases hlt : i < 19
    · simp only [hlt, show i < 20 by omega, if_true]
    · by_cases he : i = 19
      · subst he
        rfl
      · simp only [hlt, he, show ¬ i < 20 by omega, if_false]

/-- **Jump and link**, one iteration. -/
theorem jal_iff (s : Machine) (hrun : s.halted = false) (h : Rv32i.IsJal (word s)) :
    ((step s).pc = s.pc + Rv32i.immJ (word s) ∧
      (rd (word s) ≠ 0 → (step s).reg (rd (word s)) = s.pc + 4)) ↔ JumpKept (word s) := by
  have hstep : step s = execUj (word s) (fetch s).2 := step_case (o := .opUj) hrun h
  have hlink : rd (word s) ≠ 0 → (step s).reg (rd (word s)) = s.pc + 4 := by
    intro hrd
    rw [hstep, execUj, fetch_pc, link_reg _ _ hrd]
  rw [and_iff_left hlink, hstep, execUj, Machine.setPc_pc, regWrite_pc, fetch_pc,
    BitVec.add_right_inj, jumpOffset_eq_iff]

/-- `JAL x1, +8`. -/
theorem jal_iff_forward :
    let s := boot (fun _ => 0) [0xEF, 0x00, 0x80, 0x00] []
    (step s).pc = s.pc + Rv32i.immJ (word s) ∧
      (rd (word s) ≠ 0 → (step s).reg (rd (word s)) = s.pc + 4) := by
  intro s
  have h := jal_iff s rfl (by decide +kernel)
  exact h.mpr (by decide +kernel)

/-- `JAL x0, +262144`: offset bit 18 alone is set, and the jump goes backwards. -/
theorem jal_backwards :
    ¬ ∀ s : Machine, s.halted = false → Rv32i.IsJal (word s) →
      (step s).pc = s.pc + Rv32i.immJ (word s) ∧
        (rd (word s) ≠ 0 → (step s).reg (rd (word s)) = s.pc + 4) := by
  intro h
  have h0 := h (boot (fun _ => 0) [0x6F, 0x00, 0x04, 0x00] []) rfl (by decide +kernel)
  exact absurd h0.1 (by decide +kernel)

/-! ## 3. Load upper immediate -/

/-- The constant LUI writes: bits 24 to 31 are set if bit 23 of the word is. -/
theorem upper_bit (w : BitVec 32) (i : Nat) (hi : i < 32) :
    (signExtend (w >>> 12) 12 <<< 12).getLsbD i =
      (decide (12 ≤ i) && (w.getLsbD i || (decide (24 ≤ i) && w.getLsbD 23))) := by
  rw [BitVec.getLsbD_shiftLeft, decide_eq_true hi, Bool.true_and,
    getLsbD_signExtend _ _ (show i - 12 < 32 by omega), BitVec.getLsbD_ushiftRight,
    BitVec.getLsbD_ushiftRight]
  by_cases h : 12 ≤ i
  · have e : 12 + (i - 12) = i := by omega
    have hle : 12 ≤ i - 12 ↔ 24 ≤ i := by omega
    simp [h, e, hle, show ¬ i < 12 by omega]
  · simp [h, show i < 12 by omega]

theorem immU_bit (w : BitVec 32) (i : Nat) (hi : i < 32) :
    (Rv32i.immU w).getLsbD i = (decide (12 ≤ i) && w.getLsbD i) := by
  unfold Rv32i.immU
  rw [BitVec.getLsbD_append, BitVec.getLsbD_extractLsb']
  by_cases h : i < 12
  · simp [h, show ¬ 12 ≤ i by omega]
  · simp [h, show 12 ≤ i by omega, show i - 12 < 20 by omega]

/-- The upper parts LUI writes as they are: bit 11 is clear, or all bits above it are set. -/
def UpperKept (hi : BitVec 20) : Prop :=
  hi.getLsbD 11 = true → ∀ i < 8, hi.getLsbD (12 + i) = true

instance (hi : BitVec 20) : Decidable (UpperKept hi) := inferInstanceAs (Decidable (_ → _))

/-- **LUI writes the constant of the format for exactly these upper parts.** -/
theorem upper_eq_iff (w : BitVec 32) :
    signExtend (w >>> 12) 12 <<< 12 = Rv32i.immU w ↔ UpperKept (w.extractLsb' 12 20) := by
  have hfield : ∀ i < 20, (w.extractLsb' 12 20).getLsbD i = w.getLsbD (12 + i) := by
    intro i hi
    rw [BitVec.getLsbD_extractLsb', decide_eq_true hi, Bool.true_and]
  unfold UpperKept
  rw [hfield 11 (by decide)]
  constructor
  · intro h h23 i hi
    have hbit : (signExtend (w >>> 12) 12 <<< 12).getLsbD (24 + i)
        = (Rv32i.immU w).getLsbD (24 + i) := by
      rw [h]
    rw [upper_bit w _ (by omega), immU_bit w _ (by omega), decide_eq_true (by omega),
      decide_eq_true (show 24 ≤ 24 + i by omega), h23] at hbit
    rw [hfield (12 + i) (by omega), ← Nat.add_assoc]
    simpa using hbit.symm
  · intro h
    apply BitVec.eq_of_getLsbD_eq
    intro i hi
    rw [upper_bit w i hi, immU_bit w i hi]
    congr 1
    by_cases h24 : 24 ≤ i
    · cases hb : w.getLsbD 23 with
      | false => rw [Bool.and_false, Bool.or_false]
      | true =>
          have hset := h hb (i - 24) (by omega)
          rw [hfield (12 + (i - 24)) (by omega), show 12 + (12 + (i - 24)) = i by omega] at hset
          rw [hset, Bool.true_or]
    · rw [decide_eq_false h24, Bool.false_and, Bool.or_false]

section Lui

variable {inst : BitVec 32} {s : Machine}

theorem execU_reg (hrd : rd inst ≠ 0) :
    (execU inst s).reg (rd inst) = signExtend (inst >>> 12) 12 <<< 12 := by
  rw [execU, advance_rd, regWrite_reg_self s _ hrd]

theorem execU_pc : (execU inst s).pc = s.pc + 4 := by
  rw [execU, Machine.advance_pc, regWrite_pc]

theorem execU_halted : (execU inst s).halted = s.halted := by
  unfold execU regWrite
  split <;> rfl

end Lui

/-- What an iteration that executes LUI leaves. -/
theorem step_lui {s : Machine} (hrun : s.halted = false) (h : Rv32i.IsLui (word s))
    (hrd : rd (word s) ≠ 0) :
    (step s).reg (rd (word s)) = signExtend (word s >>> 12) 12 <<< 12 ∧
      (step s).pc = s.pc + 4 ∧ (step s).halted = false := by
  have hstep : step s = execU (word s) (fetch s).2 := step_case (o := .opU) hrun h
  refine ⟨by rw [hstep, execU_reg hrd], by rw [hstep, execU_pc, fetch_pc], ?_⟩
  rw [hstep, execU_halted, fetch, memRead_snd, hrun]

/-- What an iteration that executes ADDI leaves. -/
theorem step_addi {s : Machine} (hrun : s.halted = false)
    (h : Rv32i.IOp.addi.EncodedBy (word s)) (hrd : rd (word s) ≠ 0) :
    (step s).reg (rd (word s)) = s.reg (rs1 (word s)) + Rv32i.immI (word s) ∧
      (step s).pc = s.pc + 4 := by
  have hstep : step s = execI (word s) (fetch s).2 := step_case (o := .opI) hrun h.1
  refine ⟨?_, by rw [hstep, execI_pc, fetch_pc]⟩
  rw [hstep, execI_reg h hrd, fetch_reg]
  rfl

/-- **Building a constant**: the two iterations of LUI and ADDI leave it exactly if LUI writes its
    upper part as it is. -/
theorem constant_iff (s : Machine) (hrun : s.halted = false) (c : BitVec 32)
    (hlui : Rv32i.IsLui (word s)) (hrd : rd (word s) ≠ 0)
    (hhi : (word s).extractLsb' 12 20 = Rv32i.constHi c)
    (haddi : Rv32i.IOp.addi.EncodedBy (word (step s)))
    (hrd' : rd (word (step s)) = rd (word s)) (hrs1 : rs1 (word (step s)) = rd (word s))
    (hlo : (word (step s)).extractLsb' 20 12 = Rv32i.constLo c) :
    ((step s).reg (rd (word s)) = Rv32i.immU (word s) ∧
      (step (step s)).reg (rd (word s)) = c ∧ (step (step s)).pc = s.pc + 8) ↔
    UpperKept (Rv32i.constHi c) := by
  obtain ⟨hreg, hpc, hrun₁⟩ := step_lui hrun hlui hrd
  have hrd₁ : rd (word (step s)) ≠ 0 := by
    rw [hrd']
    exact hrd
  obtain ⟨hreg₁, hpc₁⟩ := step_addi hrun₁ haddi hrd₁
  rw [hrd', hrs1, Rv32i.immI, hlo] at hreg₁
  have hpc₂ : (step (step s)).pc = s.pc + 8 := by
    rw [hpc₁, hpc, BitVec.add_assoc]
    rfl
  have hupper : Rv32i.immU (word s) = Rv32i.constHi c ++ 0#12 := by rw [Rv32i.immU, hhi]
  -- ADDI completes the constant exactly if LUI has left its upper part
  have hsum : (step (step s)).reg (rd (word s)) = c ↔
      (step s).reg (rd (word s)) = Rv32i.immU (word s) := by
    have hc := Rv32i.constHi_add_constLo c
    rw [hreg₁, hupper]
    constructor
    · intro h
      exact (BitVec.add_left_inj _).mp (h.trans hc.symm)
    · intro h
      rw [h, hc]
  rw [and_iff_left hpc₂, hsum, and_self, hreg, upper_eq_iff, hhi]

/-- `LUI x1, 0x12345` and `ADDI x1, x1, 0x678`. -/
theorem constant_iff_plain :
    let s := boot (fun _ => 0) [0xB7, 0x50, 0x34, 0x12, 0x93, 0x80, 0x80, 0x67] []
    (step s).reg (rd (word s)) = Rv32i.immU (word s) ∧
      (step (step s)).reg (rd (word s)) = 0x12345678 ∧ (step (step s)).pc = s.pc + 8 := by
  intro s
  have h := constant_iff s rfl 0x12345678 (by decide +kernel) (by decide +kernel)
    (by decide +kernel) (by decide +kernel) (by decide +kernel) (by decide +kernel)
    (by decide +kernel)
  exact h.mpr (by decide +kernel)

/-- `LUI x1, 0x00800`: bit 11 of the upper part is set, and -8388608 is written for 8388608. -/
theorem lui_extended :
    ¬ ∀ (s : Machine), s.halted = false → ∀ c : BitVec 32, Rv32i.IsLui (word s) →
      rd (word s) ≠ 0 → (word s).extractLsb' 12 20 = Rv32i.constHi c →
      Rv32i.IOp.addi.EncodedBy (word (step s)) → rd (word (step s)) = rd (word s) →
      rs1 (word (step s)) = rd (word s) →
      (word (step s)).extractLsb' 20 12 = Rv32i.constLo c →
        (step s).reg (rd (word s)) = Rv32i.immU (word s) ∧
          (step (step s)).reg (rd (word s)) = c ∧ (step (step s)).pc = s.pc + 8 := by
  intro h
  have h0 := h (boot (fun _ => 0) [0xB7, 0x00, 0x80, 0x00, 0x93, 0x80, 0x00, 0x00] []) rfl
    0x00800000 (by decide +kernel) (by decide +kernel) (by decide +kernel) (by decide +kernel)
    (by decide +kernel) (by decide +kernel) (by decide +kernel)
  exact absurd h0.1 (by decide +kernel)

end SysProg.Vm
