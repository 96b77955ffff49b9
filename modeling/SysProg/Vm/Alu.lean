/-
  File:      SysProg/Vm/Alu.lean
  Subject:   THE ARITHMETIC OF `OP_R` AND `OP_I` AGAINST RV32I.

  Eight of the ten register-register operations compute what they are to
  compute. The right shifts do not: their case runs on into `SLT_FUNC3`, which
  overwrites `rd` with a comparison of the registers as the shift has left
  them, and `SRA` has not shifted the sign in before that. What is written can
  still be the result by coincidence; `SrlKept` and `SraKept` are the operands
  for which it is, by which of its operands `rd` is.

  Of the register-immediate operations `SLTI` compares unsigned, and `SLTIU`
  compares with the low 16 bits of the immediate.

  * `execR_plain`, `execR_shift` -- what `OP_R` writes;
  * `srlKept_iff`, `sraKept_iff` -- when the comparison is the shift;
  * `regReg_iff`, `regImm_iff` -- one iteration.
-/
import SysProg.Vm.Decode

namespace SysProg.Vm

open Lib

/-! ## 1. A register is written and the program counter advances -/

section Writes

variable {inst : BitVec 32} {s : Machine}

theorem advance_rd (s : Machine) (inst : BitVec 32) :
    s.advance.reg (rd inst) = s.reg (rd inst) := s.advance_reg_of_ne (rd_ne_rPc inst)

theorem regWrite_pc (s : Machine) (inst value : BitVec 32) :
    (regWrite s (rd inst) value).pc = s.pc :=
  regWrite_reg_of_ne s value (Ne.symm (rd_ne_rPc inst))

theorem setLess_reg (hrd : rd inst ≠ 0) : (setLess inst s).reg (rd inst) =
    if (s.reg (rs1 inst)).slt (s.reg (rs2 inst)) then 1 else 0 :=
  regWrite_reg_self s _ hrd

/-- A register after one has been written. -/
theorem regWrite_reg (s : Machine) {index : Reg} (value : BitVec 32) (h : index ≠ 0) (r : Reg) :
    (regWrite s index value).reg r = if index = r then value else s.reg r := by
  split
  · rename_i e
    subst e
    exact regWrite_reg_self s value h
  · rename_i hne
    exact regWrite_reg_of_ne s value (Ne.symm hne)

end Writes

/-! ## 2. What `OP_R` writes -/

section OpR

variable {inst : BitVec 32} {s : Machine} {op : Rv32i.ROp}

theorem execShiftRight_pc : (execShiftRight inst s).pc = s.pc := by
  simp only [execShiftRight, apply_ite Machine.pc, regWrite_pc, ite_self]

theorem execR_pc : (execR inst s).pc = s.pc + 4 := by
  unfold execR
  dsimp only
  rw [Machine.advance_pc]
  simp only [apply_ite Machine.pc, setLess, regWrite_pc, execShiftRight_pc, ite_self]

/-- Eight of the operations. -/
theorem execR_plain (h : op.EncodedBy inst) (hrd : rd inst ≠ 0) (hop : op ≠ .srl ∧ op ≠ .sra) :
    (execR inst s).reg (rd inst) = op.result (s.reg (rs1 inst)) (s.reg (rs2 inst)) := by
  have h3 : func3 inst = op.funct3 := h.2.1
  have h7 : func7 inst = op.funct7 := h.2.2
  unfold execR
  dsimp only
  rw [advance_rd, h3, h7]
  cases op with
  | add => exact regWrite_reg_self s _ hrd
  | sub => exact regWrite_reg_self s _ hrd
  | xor => exact regWrite_reg_self s _ hrd
  | or => exact regWrite_reg_self s _ hrd
  | and => exact regWrite_reg_self s _ hrd
  | sll => exact regWrite_reg_self s _ hrd
  | srl => exact absurd rfl hop.1
  | sra => exact absurd rfl hop.2
  | slt => exact setLess_reg hrd
  | sltu => exact regWrite_reg_self s _ hrd

/-- What the right shifts write before the comparison. -/
def shifted (op : Rv32i.ROp) (a b : BitVec 32) : BitVec 32 :=
  match op with
  | .sra => shiftRight a b ||| (32 - b)
  | _ => shiftRight a b

/-- The comparison behind a right shift, which reads the register the shift has written. -/
def lessAfter (d x y : Reg) (a b v : BitVec 32) : BitVec 32 :=
  if (if d = x then v else a).slt (if d = y then v else b) then 1 else 0

theorem execR_shift (h : op.EncodedBy inst) (hrd : rd inst ≠ 0) (hop : op = .srl ∨ op = .sra) :
    (execR inst s).reg (rd inst) = lessAfter (rd inst) (rs1 inst) (rs2 inst) (s.reg (rs1 inst))
      (s.reg (rs2 inst)) (shifted op (s.reg (rs1 inst)) (s.reg (rs2 inst))) := by
  have h3 : func3 inst = op.funct3 := h.2.1
  have h7 : func7 inst = op.funct7 := h.2.2
  have hshift : execShiftRight inst s =
      regWrite s (rd inst) (shifted op (s.reg (rs1 inst)) (s.reg (rs2 inst))) := by
    unfold execShiftRight
    dsimp only
    rw [h7]
    rcases hop with rfl | rfl <;> rfl
  have hcase : (execR inst s).reg (rd inst) = (setLess inst (execShiftRight inst s)).reg (rd inst) := by
    unfold execR
    dsimp only
    rw [advance_rd, h3]
    rcases hop with rfl | rfl <;> rfl
  rw [hcase, setLess_reg hrd, hshift, regWrite_reg _ _ hrd, regWrite_reg _ _ hrd]
  rfl

end OpR

/-! ## 3. When the comparison is the shift -/

/-- The operands `a` and `b` of an `SRL` for which `rd` holds the result: `d`, `x` and `y` are
    `rd`, `rs1` and `rs2`. -/
def SrlKept (d x y : Reg) (a b : Nat) : Prop :=
  if d = x ∧ d = y then True
  else if d = x then a = 0 ∧ b = 0 ∨ 2 ≤ b ∧ 2 ^ b ≤ a ∧ a < 2 * 2 ^ b
  else if d = y then a < 2 ^ b ∨ b = 31
  else b ≤ a ∧ a < 2 ^ b ∨ b = 31 ∧ 2 ^ 31 ≤ a

/-- The same of an `SRA`. -/
def SraKept (d x y : Reg) (a b : Nat) : Prop :=
  if d = x ∧ d = y then True
  else if d = x then a < 2 ^ b ∧ b ≤ 16 ∨ 17 ≤ b ∧ 2 ^ b ≤ a ∧ a < 2 * 2 ^ b ∧ a < 2 ^ 31
  else if d = y then 32 ≤ a + b ∧ a < 2 ^ b ∨ 2 ^ b ≤ a ∧ a < 2 * 2 ^ b ∧ a + b + b % 2 < 33
  else b ≤ a ∧ a < 2 ^ b

instance (d x y : Reg) (a b : Nat) : Decidable (SrlKept d x y a b) :=
  inferInstanceAs (Decidable (ite _ _ _))

instance (d x y : Reg) (a b : Nat) : Decidable (SraKept d x y a b) :=
  inferInstanceAs (Decidable (ite _ _ _))

/-- A comparison that is stored as a number. -/
theorem bit_eq_iff {c : Bool} {v : BitVec 32} :
    (if c then 1 else 0) = v ↔ v.toNat = 1 ∧ c = true ∨ v.toNat = 0 ∧ c = false := by
  rw [eq_comm, ← BitVec.toNat_inj]
  cases c with
  | true => simp
  | false => simp

/-- The signed comparison of two words, by their unsigned values. -/
theorem slt_iff (a b : BitVec 32) : a.slt b = true ↔
    (a.toNat < 2 ^ 31 ∧ b.toNat < 2 ^ 31 ∧ a.toNat < b.toNat) ∨
      (2 ^ 31 ≤ a.toNat ∧ (b.toNat < 2 ^ 31 ∨ a.toNat < b.toNat)) := by
  have ha := a.isLt
  have hb := b.isLt
  rw [BitVec.slt_iff_toInt_lt, BitVec.toInt_eq_toNat_cond, BitVec.toInt_eq_toNat_cond]
  split <;> split <;> omega

/-- The quotient by a power of two is 0, 1 or more. -/
theorem quotient_cases (a b : Nat) :
    a / 2 ^ b = 0 ∧ a < 2 ^ b ∨ a / 2 ^ b = 1 ∧ 2 ^ b ≤ a ∧ a < 2 * 2 ^ b ∨
      2 ≤ a / 2 ^ b ∧ 2 * 2 ^ b ≤ a := by
  have hpos := Nat.two_pow_pos b
  have h0 : a / 2 ^ b = 0 ↔ a < 2 ^ b := Nat.div_eq_zero_iff_lt hpos
  have h1 : a / 2 ^ b < 2 ↔ a < 2 * 2 ^ b := Nat.div_lt_iff_lt_mul hpos
  generalize a / 2 ^ b = v at h0 h1 ⊢
  omega

theorem two_pow_cases {b : Nat} (hb : b < 32) :
    b = 0 ∧ 2 ^ b = 1 ∨ 1 ≤ b ∧ b ≤ 30 ∧ 2 ^ b ≤ 2 ^ 30 ∨ b = 31 ∧ 2 ^ b = 2 ^ 31 := by
  by_cases h0 : b = 0
  · subst h0
    exact Or.inl ⟨rfl, rfl⟩
  · by_cases h : b ≤ 30
    · exact Or.inr (Or.inl ⟨by omega, h, Nat.pow_le_pow_right (by decide) h⟩)
    · have e : b = 31 := by omega
      exact Or.inr (Or.inr ⟨e, by rw [e]⟩)

section Kept

variable {d x y : Reg} {a b : BitVec 32}

theorem shiftRight_toNat (hb : b.toNat < 32) :
    (shiftRight a b).toNat = a.toNat / 2 ^ b.toNat := by
  rw [shiftRight, Nat.mod_eq_of_lt hb, BitVec.toNat_ushiftRight, Nat.shiftRight_eq_div_pow]

/-- **The comparison is the logical shift for exactly these operands.** If both operands are `rd`
    they are one value. -/
theorem srlKept_iff (hb : b.toNat < 32) (hxy : x = y → a = b) :
    lessAfter d x y a b (shifted .srl a b) = Rv32i.ROp.result .srl a b ↔
      SrlKept d x y a.toNat b.toNat := by
  have hv := quotient_cases a.toNat b.toNat
  rw [← shiftRight_toNat hb] at hv
  have hp := two_pow_cases hb
  have hlt : b.toNat < 2 ^ b.toNat := Nat.lt_two_pow_self
  show (if (if d = x then shiftRight a b else a).slt (if d = y then shiftRight a b else b) then 1
    else 0) = shiftRight a b ↔ _
  rw [bit_eq_iff, ← Bool.not_eq_true, slt_iff]
  unfold SrlKept
  by_cases hdx : d = x
  · by_cases hdy : d = y
    · have hab : a = b := hxy (hdx.symm.trans hdy)
      subst hab
      rw [if_pos hdx, if_pos hdy, if_pos ⟨hdx, hdy⟩, iff_true]
      omega
    · rw [if_pos hdx, if_neg hdy, if_neg fun h => hdy h.2, if_pos hdx]
      omega
  · rw [if_neg hdx, if_neg (c := d = x ∧ d = y) fun h => hdx h.1, if_neg hdx]
    by_cases hdy : d = y
    · rw [if_pos hdy, if_pos hdy]
      omega
    · rw [if_neg hdy, if_neg hdy]
      omega

/-- What `SRA` shifts in instead of the sign. -/
theorem filler_toNat (hb : b.toNat < 32) : (32 - b).toNat = 32 - b.toNat := by
  rw [BitVec.toNat_sub]
  show (2 ^ 32 - b.toNat + 32) % 2 ^ 32 = _
  omega

theorem one_or_filler : ∀ n < 32, 1 ||| (32 - n) = 33 - n - n % 2 := by decide

/-- The arithmetic shift of a negative number is negative, that of any other number the logical
    one. -/
theorem sra_toNat (a b : BitVec 32) :
    (2 ^ 31 ≤ a.toNat → 2 ^ 31 ≤ (Rv32i.ROp.result .sra a b).toNat) ∧
      (a.toNat < 2 ^ 31 → (Rv32i.ROp.result .sra a b).toNat = (shiftRight a b).toNat) := by
  have hmsb := BitVec.msb_eq_decide a
  refine ⟨fun h => ?_, fun h => ?_⟩
  · have ht : (Rv32i.ROp.result .sra a b).msb = true := by
      show (a.sshiftRight _).msb = true
      rw [BitVec.msb_sshiftRight, hmsb]
      exact decide_eq_true h
    rw [BitVec.msb_eq_decide] at ht
    exact of_decide_eq_true ht
  · have hf : a.msb = false := by
      rw [hmsb]
      exact decide_eq_false (by omega)
    show (a.sshiftRight _).toNat = _
    rw [BitVec.sshiftRight_eq_of_msb_false hf]
    rfl

/-- What `SRA` is to compute, beside what is compared instead. -/
theorem sra_cases (hb : b.toNat < 32) :
    2 ^ 31 ≤ a.toNat ∧ 2 ^ 31 ≤ (Rv32i.ROp.result .sra a b).toNat ∨
    a.toNat < 2 ^ 31 ∧ (Rv32i.ROp.result .sra a b).toNat = 0 ∧ a.toNat < 2 ^ b.toNat ∧
      (shifted .sra a b).toNat = 32 - b.toNat ∨
    a.toNat < 2 ^ 31 ∧ (Rv32i.ROp.result .sra a b).toNat = 1 ∧ 2 ^ b.toNat ≤ a.toNat ∧
      a.toNat < 2 * 2 ^ b.toNat ∧ (shifted .sra a b).toNat = 33 - b.toNat - b.toNat % 2 ∨
    a.toNat < 2 ^ 31 ∧ 2 ≤ (Rv32i.ROp.result .sra a b).toNat ∧ 2 * 2 ^ b.toNat ≤ a.toNat := by
  have hv := quotient_cases a.toNat b.toNat
  rw [← shiftRight_toNat hb] at hv
  obtain ⟨hneg, hpos⟩ := sra_toNat a b
  have hor : (shifted .sra a b).toNat = (shiftRight a b).toNat ||| (32 - b.toNat) := by
    show (shiftRight a b ||| (32 - b)).toNat = _
    rw [BitVec.toNat_or, filler_toNat hb]
  by_cases hlow : a.toNat < 2 ^ 31
  · have he := hpos hlow
    rcases hv with ⟨h0, h⟩ | ⟨h1, h⟩ | ⟨h2, h⟩
    · refine Or.inr (Or.inl ⟨hlow, he.trans h0, h, ?_⟩)
      rw [hor, h0, Nat.zero_or]
    · refine Or.inr (Or.inr (Or.inl ⟨hlow, he.trans h1, h.1, h.2, ?_⟩))
      rw [hor, h1, one_or_filler _ hb]
    · exact Or.inr (Or.inr (Or.inr ⟨hlow, he ▸ h2, h⟩))
  · exact Or.inl ⟨by omega, hneg (by omega)⟩

/-- **The comparison is the arithmetic shift for exactly these operands.** -/
theorem sraKept_iff (hb : b.toNat < 32) (hxy : x = y → a = b) :
    lessAfter d x y a b (shifted .sra a b) = Rv32i.ROp.result .sra a b ↔
      SraKept d x y a.toNat b.toNat := by
  have hcases := sra_cases (a := a) hb
  have hp := two_pow_cases hb
  have hlt : b.toNat < 2 ^ b.toNat := Nat.lt_two_pow_self
  unfold lessAfter
  rw [bit_eq_iff, ← Bool.not_eq_true, slt_iff]
  unfold SraKept
  by_cases hdx : d = x
  · by_cases hdy : d = y
    · have hab : a = b := hxy (hdx.symm.trans hdy)
      subst hab
      rw [if_pos hdx, if_pos hdy, if_pos ⟨hdx, hdy⟩, iff_true]
      rcases hcases with h | h | h | h <;> omega
    · rw [if_pos hdx, if_neg hdy, if_neg fun h => hdy h.2, if_pos hdx]
      rcases hcases with h | h | h | h <;> omega
  · rw [if_neg hdx, if_neg (c := d = x ∧ d = y) fun h => hdx h.1, if_neg hdx]
    by_cases hdy : d = y
    · rw [if_pos hdy, if_pos hdy]
      rcases hcases with h | h | h | h <;> omega
    · rw [if_neg hdy, if_neg hdy]
      rcases hcases with h | h | h | h <;> omega

end Kept

/-! ## 4. One iteration of `OP_R` -/

/-- The operands for which an operation leaves its result in `rd`. -/
def RegRegKept (op : Rv32i.ROp) (d x y : Reg) (a b : Nat) : Prop :=
  match op with
  | .srl => SrlKept d x y a b
  | .sra => SraKept d x y a b
  | _ => True

theorem execR_iff {inst : BitVec 32} {s : Machine} {op : Rv32i.ROp} (h : op.EncodedBy inst)
    (hrd : rd inst ≠ 0) (hshift : op.isShift = true → (s.reg (rs2 inst)).toNat < 32) :
    (execR inst s).reg (rd inst) = op.result (s.reg (rs1 inst)) (s.reg (rs2 inst)) ↔
      RegRegKept op (rd inst) (rs1 inst) (rs2 inst) (s.reg (rs1 inst)).toNat
        (s.reg (rs2 inst)).toNat := by
  have hxy : rs1 inst = rs2 inst → s.reg (rs1 inst) = s.reg (rs2 inst) := congrArg s.reg
  by_cases hop : op = .srl ∨ op = .sra
  · rw [execR_shift h hrd hop]
    rcases hop with rfl | rfl
    · exact srlKept_iff (hshift rfl) hxy
    · exact sraKept_iff (hshift rfl) hxy
  · obtain ⟨hl, ha⟩ := not_or.mp hop
    refine iff_of_true (execR_plain h hrd ⟨hl, ha⟩) ?_
    cases op with
    | srl => exact absurd rfl hl
    | sra => exact absurd rfl ha
    | _ => trivial

/-- **Register-register arithmetic**: an iteration leaves the result of the operation in `rd` and
    advances the program counter exactly for the operands kept. -/
theorem regReg_iff (s : Machine) (hrun : s.halted = false) (op : Rv32i.ROp)
    (h : op.EncodedBy (word s)) (hrd : rd (word s) ≠ 0)
    (hshift : op.isShift = true → (s.reg (rs2 (word s))).toNat < 32) :
    ((step s).reg (rd (word s)) = op.result (s.reg (rs1 (word s))) (s.reg (rs2 (word s))) ∧
      (step s).pc = s.pc + 4) ↔
    RegRegKept op (rd (word s)) (rs1 (word s)) (rs2 (word s)) (s.reg (rs1 (word s))).toNat
      (s.reg (rs2 (word s))).toNat := by
  have hstep : step s = execR (word s) (fetch s).2 := step_case (o := .opR) hrun h.1
  rw [← fetch_reg s] at hshift
  have hiff := execR_iff h hrd hshift
  rw [fetch_reg] at hiff
  rw [hstep, execR_pc, fetch_pc, and_iff_left rfl, hiff]

/-- `SRL x1, x2, x3` with 5 and 3: the result and the comparison are 0. -/
theorem regReg_iff_coincidence :
    let s : Machine := { boot (fun _ => 0) [0xB3, 0x50, 0x31, 0x00] [] with
      reg := fun r => if r = 2 then 5 else if r = 3 then 3 else 0 }
    (step s).reg (rd (word s)) =
        Rv32i.ROp.result .srl (s.reg (rs1 (word s))) (s.reg (rs2 (word s))) ∧
      (step s).pc = s.pc + 4 := by
  intro s
  exact (regReg_iff s rfl .srl (by decide +kernel) (by decide +kernel)
    (fun _ => by decide +kernel)).mpr (show SrlKept _ _ _ _ _ by decide +kernel)

/-- `SRL x1, x2, x3` with 16 and 2: 0 is written, not 4. -/
theorem shift_overwritten :
    ¬ ∀ s : Machine, s.halted = false → ∀ op : Rv32i.ROp, op.EncodedBy (word s) →
      rd (word s) ≠ 0 → (op.isShift = true → (s.reg (rs2 (word s))).toNat < 32) →
        (step s).reg (rd (word s)) = op.result (s.reg (rs1 (word s))) (s.reg (rs2 (word s))) ∧
          (step s).pc = s.pc + 4 := by
  intro h
  have h0 := h { boot (fun _ => 0) [0xB3, 0x50, 0x31, 0x00] [] with
    reg := fun r => if r = 2 then 16 else if r = 3 then 2 else 0 } rfl .srl (by decide +kernel)
    (by decide +kernel) (fun _ => by decide +kernel)
  exact absurd h0.1 (by decide +kernel)

/-! ## 5. One iteration of `OP_I` -/

/-- The value `OP_I` writes. -/
def immWritten (op : Rv32i.IOp) (a imm : BitVec 32) : BitVec 32 :=
  match op with
  | .addi => a + imm
  | .xori => a ^^^ imm
  | .ori => a ||| imm
  | .andi => a &&& imm
  | .slti => if a < imm then 1 else 0
  | .sltiu => if a < (imm.setWidth 16).setWidth 32 then 1 else 0

section OpI

variable {inst : BitVec 32} {s : Machine} {op : Rv32i.IOp} {a imm : BitVec 32}

theorem execI_pc : (execI inst s).pc = s.pc + 4 := by
  unfold execI
  dsimp only
  rw [Machine.advance_pc]
  simp only [apply_ite Machine.pc, regWrite_pc, ite_self]

theorem execI_reg (h : op.EncodedBy inst) (hrd : rd inst ≠ 0) :
    (execI inst s).reg (rd inst) = immWritten op (s.reg (rs1 inst)) (Rv32i.immI inst) := by
  have h3 : func3 inst = op.funct3 := h.2
  unfold execI
  dsimp only
  rw [advance_rd, h3, ← immI_eq]
  cases op <;> exact regWrite_reg_self s _ hrd

/-- The operands for which an operation leaves its result in `rd`: for `SLTI` the register and
    the immediate have the same sign, for `SLTIU` the register is below the low 16 bits of the
    immediate or not below the immediate. -/
def RegImmKept (op : Rv32i.IOp) (a imm : BitVec 32) : Prop :=
  match op with
  | .slti => a.msb = imm.msb
  | .sltiu => a.toNat < imm.toNat % 2 ^ 16 ∨ imm.toNat ≤ a.toNat
  | _ => True

theorem bit_inj {p q : Prop} [Decidable p] [Decidable q] :
    ((if p then 1 else 0 : BitVec 32) = if q then 1 else 0) ↔ (p ↔ q) := by
  by_cases hp : p <;> by_cases hq : q <;> simp [hp, hq]

theorem immWritten_iff : immWritten op a imm = op.result a imm ↔ RegImmKept op a imm := by
  cases op with
  | addi => exact iff_of_true rfl trivial
  | xori => exact iff_of_true rfl trivial
  | ori => exact iff_of_true rfl trivial
  | andi => exact iff_of_true rfl trivial
  | slti =>
      show (if a < imm then 1 else 0) = (if a.slt imm = true then 1 else 0) ↔ a.msb = imm.msb
      have ha := a.isLt
      have hi := imm.isLt
      rw [bit_inj, slt_iff, BitVec.lt_def, BitVec.msb_eq_decide, BitVec.msb_eq_decide,
        decide_eq_decide]
      omega
  | sltiu =>
      show (if a < (imm.setWidth 16).setWidth 32 then 1 else 0) = (if a < imm then 1 else 0) ↔
        a.toNat < imm.toNat % 2 ^ 16 ∨ imm.toNat ≤ a.toNat
      have hlow : ((imm.setWidth 16).setWidth 32).toNat = imm.toNat % 2 ^ 16 := by
        rw [BitVec.toNat_setWidth, BitVec.toNat_setWidth]
        omega
      rw [bit_inj, BitVec.lt_def, BitVec.lt_def, hlow]
      omega

end OpI

/-- **Register-immediate arithmetic**, one iteration. -/
theorem regImm_iff (s : Machine) (hrun : s.halted = false) (op : Rv32i.IOp)
    (h : op.EncodedBy (word s)) (hrd : rd (word s) ≠ 0) :
    ((step s).reg (rd (word s)) = op.result (s.reg (rs1 (word s))) (Rv32i.immI (word s)) ∧
      (step s).pc = s.pc + 4) ↔
    RegImmKept op (s.reg (rs1 (word s))) (Rv32i.immI (word s)) := by
  have hstep : step s = execI (word s) (fetch s).2 := step_case (o := .opI) hrun h.1
  rw [hstep, execI_pc, fetch_pc, and_iff_left rfl, execI_reg h hrd, fetch_reg, immWritten_iff]

/-- `SLTI x1, x2, 1` with 0. -/
theorem regImm_iff_less :
    let s := boot (fun _ => 0) [0x93, 0x20, 0x11, 0x00] []
    (step s).reg (rd (word s)) =
        Rv32i.IOp.result .slti (s.reg (rs1 (word s))) (Rv32i.immI (word s)) ∧
      (step s).pc = s.pc + 4 := by
  intro s
  exact (regImm_iff s rfl .slti (by decide +kernel) (by decide +kernel)).mpr
    (show _ = _ by decide +kernel)

/-- `SLTI x1, x2, 0` with -1: 0 is written, as if the register were 4294967295. -/
theorem slti_unsigned :
    ¬ ∀ s : Machine, s.halted = false → ∀ op : Rv32i.IOp, op.EncodedBy (word s) →
      rd (word s) ≠ 0 →
        (step s).reg (rd (word s)) = op.result (s.reg (rs1 (word s))) (Rv32i.immI (word s)) ∧
          (step s).pc = s.pc + 4 := by
  intro h
  have h0 := h { boot (fun _ => 0) [0x93, 0x20, 0x01, 0x00] [] with
    reg := fun r => if r = 2 then -1 else 0 } rfl .slti (by decide +kernel) (by decide +kernel)
  exact absurd h0.1 (by decide +kernel)

end SysProg.Vm
