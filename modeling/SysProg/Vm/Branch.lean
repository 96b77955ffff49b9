/-
  File:      SysProg/Vm/Branch.lean
  Subject:   WHERE A BRANCH GOES, and when it is taken.

  A branch that is taken adds `branchOffset` to the program counter, one that
  is not adds 4. Which of the two it is, is what the case of the `switch`
  compares (`branchTaken`).

  * `step_branch` -- the program counter after a branch;
  * `branch_target_iff` -- it is the target of the format exactly for the
    words whose offset survives the decoding;
  * `conditionsKept_iff` -- the conditions are those of the instruction set
    exactly for two different operands of the same sign: `BGE` and `BGEU`
    leave equality out, and `BLT` compares unsigned;
  * `branch_kept_iff` -- both together: when the branch goes where the
    instruction would, by its own condition.
-/
import SysProg.Lib.Hart
import SysProg.Vm.Decode

namespace SysProg.Vm

open Lib

/-! ## 1. The target -/

theorem execSb_pc {inst : BitVec 32} {s : Machine} {taken : Bool}
    (h : branchTaken (func3 inst) (s.reg (rs1 inst)) (s.reg (rs2 inst)) = some taken) :
    (execSb inst s).pc = if taken then s.pc + branchOffset inst else s.pc + 4 := by
  unfold execSb
  rw [h]
  cases taken with
  | true => exact s.setPc_pc _
  | false => exact s.advance_pc

/-- The program counter after an iteration that executes a branch. -/
theorem step_branch {s : Machine} (hrun : s.halted = false)
    (hop : (word s).extractLsb' 0 7 = 0b1100011) {taken : Bool}
    (h : branchTaken (func3 (word s)) (s.reg (rs1 (word s))) (s.reg (rs2 (word s))) = some taken) :
    (step s).pc = if taken then s.pc + branchOffset (word s) else s.pc + 4 := by
  have hstep : step s = execSb (word s) (fetch s).2 := step_case (o := .opSb) hrun hop
  rw [← fetch_reg s] at h
  rw [hstep, execSb_pc h, fetch_pc]

/-- **A branch goes where its format says exactly if it is not taken or its offset survives.** -/
theorem branch_target_iff (s : Machine) (hrun : s.halted = false)
    (hop : (word s).extractLsb' 0 7 = 0b1100011) (taken : Bool)
    (h : branchTaken (func3 (word s)) (s.reg (rs1 (word s))) (s.reg (rs2 (word s))) = some taken) :
    (step s).pc = (if taken then s.pc + Rv32i.immB (word s) else s.pc + 4) ↔
      (taken = true → OffsetKept (word s)) := by
  rw [step_branch hrun hop h]
  cases taken with
  | true =>
      simp only [if_true, true_implies]
      rw [BitVec.add_right_inj, branchOffset_eq_iff]
  | false => simp

/-- `BEQ x0, x0, +8`. -/
theorem branch_target_iff_forward :
    let s := boot (fun _ => 0) [0x63, 0x04, 0x00, 0x00] []
    (step s).pc = s.pc + Rv32i.immB (word s) := by
  intro s
  exact (branch_target_iff s rfl (by decide +kernel) true (by decide +kernel)).mpr
    (by decide +kernel)

/-- `BEQ x0, x0, +512`: the offset is in bit 29 of the word, and lost. -/
theorem branch_target_lost :
    ¬ ∀ s : Machine, s.halted = false → (word s).extractLsb' 0 7 = 0b1100011 → ∀ taken : Bool,
      branchTaken (func3 (word s)) (s.reg (rs1 (word s))) (s.reg (rs2 (word s))) = some taken →
        (step s).pc = if taken then s.pc + Rv32i.immB (word s) else s.pc + 4 := by
  intro h
  have h0 := h (boot (fun _ => 0) [0x63, 0x00, 0x00, 0x20] []) rfl (by decide +kernel) true
    (by decide +kernel)
  exact absurd h0 (by decide +kernel)

/-! ## 2. The conditions -/

/-- What the conditions are to be of two operands: of a branch and its opposite exactly one is
    taken, `BLT` compares the operands as signed numbers and `BLTU` as unsigned ones. -/
structure ConditionsKept (a b : BitVec 32) : Prop where
  opposite : ∀ op : Rv32i.BOp, ∃ taken : Bool,
    branchTaken op.funct3 a b = some taken ∧ branchTaken op.opposite.funct3 a b = some !taken
  signed : branchTaken Rv32i.BOp.blt.funct3 a b = some (decide (a.toInt < b.toInt))
  unsigned : branchTaken Rv32i.BOp.bltu.funct3 a b = some (decide (a.toNat < b.toNat))

/-- What the cases of the `switch` compare. -/
def compared (op : Rv32i.BOp) (a b : BitVec 32) : Bool :=
  match op with
  | .beq => decide (a = b)
  | .bne => decide (a ≠ b)
  | .blt => decide (a < b)
  | .bltu => decide (a < b)
  | .bge => decide (b < a)
  | .bgeu => decide (b < a)

theorem branchTaken_eq (op : Rv32i.BOp) (a b : BitVec 32) :
    branchTaken op.funct3 a b = some (compared op a b) := by
  cases op <;> rfl

/-- The comparison of `BLT` is the signed one exactly for operands of the same sign. -/
theorem lt_eq_slt_iff (a b : BitVec 32) :
    decide (a < b) = decide (a.toInt < b.toInt) ↔ a.msb = b.msb := by
  have ha := a.isLt
  have hb := b.isLt
  rw [decide_eq_decide, BitVec.lt_def, BitVec.toInt_eq_toNat_cond, BitVec.toInt_eq_toNat_cond,
    BitVec.msb_eq_decide, BitVec.msb_eq_decide, decide_eq_decide]
  split <;> split <;> omega

/-- Of two different operands one is the larger. -/
theorem compared_opposite {a b : BitVec 32} (h : a ≠ b) (op : Rv32i.BOp) :
    compared op.opposite a b = !compared op a b := by
  have hne : a.toNat ≠ b.toNat := BitVec.toNat_ne.mp h
  have hlt : decide (b < a) = !decide (a < b) := by
    rw [← decide_not, decide_eq_decide, BitVec.lt_def, BitVec.lt_def]
    omega
  cases op with
  | beq => exact decide_not
  | bne => exact (Bool.not_not _).symm.trans (congrArg _ decide_not.symm)
  | blt => exact hlt
  | bltu => exact hlt
  | bge => exact (Bool.not_not _).symm.trans (congrArg _ hlt.symm)
  | bgeu => exact (Bool.not_not _).symm.trans (congrArg _ hlt.symm)

/-- **The conditions of the branches are kept exactly by different operands of the same sign.** -/
theorem conditionsKept_iff (a b : BitVec 32) :
    ConditionsKept a b ↔ a ≠ b ∧ a.msb = b.msb := by
  constructor
  · intro h
    constructor
    · intro e
      subst e
      -- of two equal operands neither is below the other
      obtain ⟨taken, h1, h2⟩ := h.opposite .blt
      rw [branchTaken_eq] at h1 h2
      simp only [compared, Rv32i.BOp.opposite, Option.some.injEq] at h1 h2
      rw [← h1] at h2
      simp at h2
    · have hs := h.signed
      rw [branchTaken_eq] at hs
      exact (lt_eq_slt_iff a b).mp (Option.some.inj hs)
  · intro h
    obtain ⟨hne, hsign⟩ := h
    refine { opposite := fun op => ?_, signed := ?_, unsigned := ?_ }
    · refine ⟨compared op a b, branchTaken_eq op a b, ?_⟩
      rw [branchTaken_eq, compared_opposite hne]
    · rw [branchTaken_eq]
      exact congrArg some ((lt_eq_slt_iff a b).mpr hsign)
    · exact branchTaken_eq .bltu a b

/-- Equal operands: neither `BLT` nor `BGE` is taken. -/
theorem bge_at_equality : ¬ ∀ a b : BitVec 32, ConditionsKept a b := by
  intro h
  obtain ⟨taken, h1, h2⟩ := (h 0 0).opposite .blt
  cases taken with
  | true => exact absurd h1 (by decide)
  | false => exact absurd h2 (by decide)

/-! ## 3. The target, with the condition of the instruction -/

/-- The operands a branch is decided on as it should be. -/
def ComparedKept (op : Rv32i.BOp) (a b : BitVec 32) : Prop :=
  match op with
  | .blt => a.msb = b.msb
  | .bge => a ≠ b ∧ a.msb = b.msb
  | .bgeu => a ≠ b
  | _ => True

/-- A branch that goes where it should: it is decided right and its offset survives, or the wrong
    decision leads to the next word as well. -/
def BranchKept (op : Rv32i.BOp) (w a b : BitVec 32) : Prop :=
  ComparedKept op a b ∧ (op.taken a b = true → OffsetKept w) ∨
    ¬ ComparedKept op a b ∧ (if op.taken a b then Rv32i.immB w else branchOffset w) = 4

theorem compared_eq_taken_iff (op : Rv32i.BOp) (a b : BitVec 32) :
    compared op a b = op.taken a b ↔ ComparedKept op a b := by
  have ha := a.isLt
  have hb := b.isLt
  cases op with
  | beq => exact iff_of_true rfl trivial
  | bne => exact iff_of_true rfl trivial
  | blt => exact lt_eq_slt_iff a b
  | bltu => exact iff_of_true rfl trivial
  | bge =>
      show decide (b < a) = decide (b.toInt ≤ a.toInt) ↔ a ≠ b ∧ a.msb = b.msb
      rw [decide_eq_decide, BitVec.lt_def, BitVec.toInt_eq_toNat_cond, BitVec.toInt_eq_toNat_cond,
        BitVec.msb_eq_decide, BitVec.msb_eq_decide, decide_eq_decide, BitVec.toNat_ne]
      split <;> split <;> omega
  | bgeu =>
      show decide (b < a) = decide (b.toNat ≤ a.toNat) ↔ a ≠ b
      rw [decide_eq_decide, BitVec.lt_def, BitVec.toNat_ne]
      omega

/-- Where the VM goes and where it should. -/
theorem branch_goes_iff (op : Rv32i.BOp) (w a b pc : BitVec 32) :
    (if compared op a b then pc + branchOffset w else pc + 4) =
        (if op.taken a b then pc + Rv32i.immB w else pc + 4) ↔ BranchKept op w a b := by
  unfold BranchKept
  rw [← compared_eq_taken_iff, ← branchOffset_eq_iff]
  have hadd : ∀ x y : BitVec 32, pc + x = pc + y ↔ x = y := fun x y => BitVec.add_right_inj pc
  cases compared op a b with
  | true =>
      cases op.taken a b with
      | true => simp [hadd]
      | false => simp [hadd]
  | false =>
      cases op.taken a b with
      | true => simp [hadd, eq_comm]
      | false => simp

/-- **A branch goes where the instruction does**, by the condition of the instruction, exactly if it
    is decided right and its offset survives, up to targets that are the next word. -/
theorem branch_kept_iff (s : Machine) (hrun : s.halted = false)
    (hop : (word s).extractLsb' 0 7 = 0b1100011) (op : Rv32i.BOp)
    (h : func3 (word s) = op.funct3) :
    (step s).pc = (if op.taken (s.reg (rs1 (word s))) (s.reg (rs2 (word s)))
        then s.pc + Rv32i.immB (word s) else s.pc + 4) ↔
      BranchKept op (word s) (s.reg (rs1 (word s))) (s.reg (rs2 (word s))) := by
  have htaken : branchTaken (func3 (word s)) (s.reg (rs1 (word s))) (s.reg (rs2 (word s))) =
      some (compared op (s.reg (rs1 (word s))) (s.reg (rs2 (word s)))) := by
    rw [h, branchTaken_eq]
  rw [step_branch hrun hop htaken]
  exact branch_goes_iff op (word s) _ _ s.pc

end SysProg.Vm
