/-
  File:      SysProg/Vm/Progress.lean
  Subject:   WORDS THAT ARE NO INSTRUCTION: which of them the loop gets past.

  Each case of the `switch` advances the program counter on its own. The
  cases of OP_SB do it one by one, and a `func3` without a case, like an
  opcode without one, leaves it where it is; OP_I_JMP does not look at
  `func3` and jumps. The parameter `addr` of `mem_read` has 16 bits, so a
  jump by a multiple of 65536 comes back to the word it is in.

  * `execIMem_pc`, `execS_progress` -- loads and stores get past their word,
    whatever its `func3`;
  * `advance_fetchAddress` -- four bytes on is another place;
  * `unimplemented_iff` -- the words the loop gets past;
  * `spins` -- the others it executes for ever.
-/
import SysProg.Vm.Jump
import SysProg.Vm.LoadStore

namespace SysProg.Vm

open Lib

/-! ## 1. Instructions -/

/-- The word is an instruction of the machine: its opcode has a case, and `func3` and `func7` are
    assigned where the format has them. -/
inductive Implemented (w : BitVec 32) : Prop where
  | regReg (op : Rv32i.ROp) (h : op.EncodedBy w)
  | regImm (op : Rv32i.IOp) (h : op.EncodedBy w)
  | load (op : Rv32i.LoadOp) (h : op.EncodedBy w)
  | store (n : Rv32i.Width) (h : n.StoredBy w)
  | branch (op : Rv32i.BOp) (h : op.EncodedBy w)
  | jal (h : Rv32i.IsJal w)
  | jalr (h : Rv32i.IsJalr w)
  | lui (h : Rv32i.IsLui w)

theorem bits_of_opcode {inst : BitVec 32} {o : Opcode} (h : opcode inst = some o) :
    inst.extractLsb' 0 7 = o.bits := by
  have hf := List.find?_some h
  exact (of_decide_eq_true hf).symm

/-- An instruction has one of the eight opcodes. -/
theorem Implemented.opcode_ne_none {w : BitVec 32} (h : Implemented w) : opcode w ≠ none := by
  have hsome : ∀ o : Opcode, w.extractLsb' 0 7 = o.bits → opcode w ≠ none := by
    intro o hb e
    rw [opcode_of_bits hb] at e
    cases e
  cases h with
  | regReg op h => exact hsome .opR h.1
  | regImm op h => exact hsome .opI h.1
  | load op h => exact hsome .opIMem h.1
  | store n h => exact hsome .opS h.1
  | branch op h => exact hsome .opSb h.1
  | jal h => exact hsome .opUj h
  | jalr h => exact hsome .opIJmp h.1
  | lui h => exact hsome .opU h

/-- The `switch` over `func3` of a branch has a case for the six branches. -/
theorem branchTaken_eq_none {f : BitVec 3} (h : ∀ op : Rv32i.BOp, f ≠ op.funct3)
    (a b : BitVec 32) : branchTaken f a b = none := by
  have hbeq : f ≠ beqFunc3 := h .beq
  have hbne : f ≠ bneFunc3 := h .bne
  have hblt : f ≠ bltFunc3 := h .blt
  have hbltu : f ≠ bltuFunc3 := h .bltu
  have hbge : f ≠ bgeFunc3 := h .bge
  have hbgeu : f ≠ bgeuFunc3 := h .bgeu
  unfold branchTaken
  rw [if_neg hbeq, if_neg hbne, if_neg hblt, if_neg hbltu, if_neg hbge, if_neg hbgeu]

/-! ## 2. The program counter behind a load or a store -/

section Memory

variable (inst : BitVec 32) (s : Machine)

theorem readInt_pc : (readInt inst s).pc = s.pc := by
  have hs : (scanfInt s).2.pc = s.pc := congrFun (scanfInt_reg s) rPc
  unfold readInt
  split
  · dsimp only
    split
    · exact (Machine.setReg_reg_of_ne _ _ (Ne.symm (rd_ne_rPc inst))).trans hs
    · exact hs
  · rfl

theorem loadBytes_pc (byteLen : Nat) (conv : BitVec 32 → BitVec 32) :
    (loadBytes inst s byteLen conv).pc = s.pc := by
  unfold loadBytes
  rw [regWrite_pc]
  exact congrFun (memRead_reg s _ byteLen) rPc

theorem execIMem_pc : (execIMem inst s).pc = s.pc + 4 := by
  have hg : (getchar s).2.pc = s.pc := congrFun (getchar_reg s) rPc
  unfold execIMem load
  dsimp only
  rw [Machine.advance_pc]
  simp only [apply_ite Machine.pc, regWrite_pc, hg, readInt_pc, loadBytes_pc, ite_self]

/-- A store stops the machine or gets past its word. -/
theorem execS_progress : (execS inst s).halted = true ∨ (execS inst s).pc = s.pc + 4 := by
  have hm : ∀ a n, (memRead s a n).2.pc = s.pc := fun a n => congrFun (memRead_reg s a n) rPc
  have hs : (store inst s).pc = s.pc := congrFun (store_reg inst s) rPc
  have hp : ∀ (t : Machine) (text : List Char), (t.print text).pc = t.pc := fun _ _ => rfl
  unfold execS
  dsimp only
  split
  · exact Or.inl rfl
  · refine Or.inr ?_
    rw [Machine.advance_pc]
    simp only [apply_ite Machine.pc, hp, hm, hs, ite_self]

end Memory

/-! ## 3. One iteration -/

theorem execIJmp_halted (inst : BitVec 32) (s : Machine) :
    (execIJmp inst s).halted = s.halted := by
  unfold execIJmp regWrite
  dsimp only
  split <;> rfl

/-- The byte `main` fetches the word from. -/
def fetchAddress (s : Machine) : BitVec 16 := s.pc.setWidth 16

/-- One iteration stops the machine, or advances the program counter and has the next one fetch
    its word from another place. -/
def Leaves (s : Machine) : Prop :=
  ((step s).halted = true ∨ (step s).pc ≠ s.pc) ∧
    ((step s).halted = true ∨ fetchAddress (step s) ≠ fetchAddress s)

/-- The words that are no instruction and are left: the opcode has a case, which is not that of a
    branch, and if it is that of JALR the jump does not go to the word itself. -/
def MovesOn (w : BitVec 32) (s : Machine) : Prop :=
  match opcode w with
  | none => False
  | some .opSb => False
  | some .opIJmp => (jalrBase w s + Rv32i.immI w).setWidth 16 ≠ fetchAddress s
  | some _ => True

/-- Another place is another program counter. -/
theorem leaves_iff (s : Machine) :
    Leaves s ↔ (step s).halted = true ∨ fetchAddress (step s) ≠ fetchAddress s := by
  refine and_iff_right_of_imp fun h => h.imp_right fun hne he => hne ?_
  unfold fetchAddress
  rw [he]

theorem advance_fetchAddress (x : BitVec 32) :
    (x + 4).setWidth 16 ≠ x.setWidth 16 := by
  intro h
  have h4 := congrArg BitVec.toNat h
  rw [BitVec.toNat_setWidth, BitVec.toNat_setWidth, BitVec.toNat_add] at h4
  have e : (4 : BitVec 32).toNat = 4 := rfl
  omega

theorem fetch_halted (s : Machine) : (fetch s).2.halted = s.halted := by
  rw [fetch, memRead_snd]

theorem leaves_of_halted {s : Machine} (h : (step s).halted = true) : Leaves s :=
  (leaves_iff s).mpr (Or.inl h)

theorem leaves_of_advance {s : Machine} (h : (step s).pc = s.pc + 4) : Leaves s := by
  refine (leaves_iff s).mpr (Or.inr ?_)
  unfold fetchAddress
  rw [h]
  exact advance_fetchAddress s.pc

/-- Where the word has no case the iteration leaves the program counter. -/
theorem step_stuck {s : Machine} (hrun : s.halted = false) (h : ¬ Implemented (word s))
    (ho : opcode (word s) = none ∨ opcode (word s) = some .opSb) :
    (step s).reg = s.reg ∧ (step s).memory = s.memory ∧ (step s).halted = false := by
  cases ho with
  | inl ho =>
      rw [step_running hrun, execute, ho]
      exact ⟨fetch_reg s, fetch_memory s, (fetch_halted s).trans hrun⟩
  | inr ho =>
      have hnone : ∀ a b, branchTaken (func3 (word s)) a b = none := by
        refine branchTaken_eq_none fun op e => h (.branch op ⟨bits_of_opcode ho, e⟩)
      rw [step_running hrun, execute, ho]
      dsimp only
      rw [execSb, hnone]
      exact ⟨fetch_reg s, fetch_memory s, (fetch_halted s).trans hrun⟩

theorem not_leaves {s : Machine} (hpc : (step s).pc = s.pc) (hh : (step s).halted = false) :
    ¬ Leaves s := by
  intro h
  cases h.1 with
  | inl h => rw [hh] at h; cases h
  | inr h => exact h hpc

theorem leaves_iff_movesOn {s : Machine} (hrun : s.halted = false)
    (h : ¬ Implemented (word s)) : Leaves s ↔ MovesOn (word s) s := by
  unfold MovesOn
  cases ho : opcode (word s) with
  | none =>
      obtain ⟨hr, _, hh⟩ := step_stuck hrun h (Or.inl ho)
      exact iff_of_false (not_leaves (congrFun hr rPc) hh) id
  | some o =>
      have hcase : step s = execCase o (word s) (fetch s).2 := step_case hrun (bits_of_opcode ho)
      cases o with
      | opR =>
          have hstep : step s = execR (word s) (fetch s).2 := hcase
          exact iff_of_true (leaves_of_advance (by rw [hstep, execR_pc, fetch_pc])) trivial
      | opI =>
          have hstep : step s = execI (word s) (fetch s).2 := hcase
          exact iff_of_true (leaves_of_advance (by rw [hstep, execI_pc, fetch_pc])) trivial
      | opIMem =>
          have hstep : step s = execIMem (word s) (fetch s).2 := hcase
          exact iff_of_true (leaves_of_advance (by rw [hstep, execIMem_pc, fetch_pc])) trivial
      | opIJmp =>
          have hstep : step s = execIJmp (word s) (fetch s).2 := hcase
          have htarget : (step s).pc = jalrBase (word s) s + Rv32i.immI (word s) := by
            rw [hstep, execIJmp_pc, jalrBase, jalrBase, fetch_pc, fetch_reg]
          have hh : (step s).halted = false := by
            rw [hstep, execIJmp_halted, fetch_halted, hrun]
          rw [leaves_iff, fetchAddress, htarget, hh]
          exact or_iff_right Bool.false_ne_true
      | opU => exact absurd (.lui (bits_of_opcode ho)) h
      | opS =>
          have hstep : step s = execS (word s) (fetch s).2 := hcase
          refine iff_of_true ?_ trivial
          cases execS_progress (word s) (fetch s).2 with
          | inl hh => exact leaves_of_halted (by rw [hstep, hh])
          | inr hp => exact leaves_of_advance (by rw [hstep, hp, fetch_pc])
      | opSb =>
          obtain ⟨hr, _, hh⟩ := step_stuck hrun h (Or.inr ho)
          exact iff_of_false (not_leaves (congrFun hr rPc) hh) id
      | opUj => exact absurd (.jal (bits_of_opcode ho)) h

/-! ## 4. The iterations behind it -/

/-- The word an iteration executes depends on the memory and the place it is fetched from. -/
theorem word_congr {s t : Machine} (hm : t.memory = s.memory)
    (hp : fetchAddress t = fetchAddress s) : word t = word s := by
  unfold fetchAddress at hp
  unfold word fetch
  apply BitVec.eq_of_getLsbD_eq
  intro i hi
  rw [memRead_bit _ _ _ _ hi, memRead_bit _ _ _ _ hi, hm, hp]

/-- A jump to the place of the word itself is one again from there: a base that is a link moves
    with the program counter, and any other is not written. -/
theorem jump_again {s : Machine} (hrun : s.halted = false)
    (ho : opcode (word s) = some .opIJmp)
    (hj : (jalrBase (word s) s + Rv32i.immI (word s)).setWidth 16 = fetchAddress s) :
    (jalrBase (word s) (step s) + Rv32i.immI (word s)).setWidth 16 = fetchAddress (step s) := by
  have hstep : step s = execIJmp (word s) (fetch s).2 :=
    step_case (o := .opIJmp) hrun (bits_of_opcode ho)
  have htarget : (step s).pc = jalrBase (word s) s + Rv32i.immI (word s) := by
    rw [hstep, execIJmp_pc, jalrBase, jalrBase, fetch_pc, fetch_reg]
  by_cases hrd : rd (word s) = rs1 (word s) ∧ (rd (word s)).val ≠ 0
  · have hbase : ∀ t : Machine, jalrBase (word s) t = t.pc + 4 := fun t => if_pos hrd
    have hpc : fetchAddress (step s) = fetchAddress s := by
      rw [fetchAddress, htarget, hj]
    have hoff : (4 + Rv32i.immI (word s)).setWidth 16 = 0#16 := by
      unfold fetchAddress at hj
      rw [hbase, BitVec.add_assoc, BitVec.setWidth_add _ _ (by decide)] at hj
      exact BitVec.add_right_eq_self.mp hj
    rw [hbase, BitVec.add_assoc, BitVec.setWidth_add _ _ (by decide), hoff, BitVec.add_zero]
    rfl
  · have hbase : jalrBase (word s) (step s) = jalrBase (word s) s := by
      unfold jalrBase
      rw [if_neg hrd, if_neg hrd]
      by_cases h0 : rs1 (word s) = 0
      · rw [h0, step_zero]
      · refine step_reg s (rs1_ne_rPc _) fun _ e => hrd ⟨e.symm, fun hz => h0 ?_⟩
        exact e.trans (Fin.ext hz)
    rw [hbase, fetchAddress, htarget]

/-- A word that is not left is executed again, and again not left. -/
theorem stays {s : Machine} (hrun : s.halted = false) (h : ¬ Implemented (word s))
    (hm : ¬ MovesOn (word s) s) :
    (step s).halted = false ∧ fetchAddress (step s) = fetchAddress s ∧ word (step s) = word s ∧
      ¬ MovesOn (word (step s)) (step s) := by
  have hl : ¬ ((step s).halted = true ∨ fetchAddress (step s) ≠ fetchAddress s) := fun hl =>
    hm ((leaves_iff_movesOn hrun h).mp ((leaves_iff s).mpr hl))
  have hh : (step s).halted = false := Bool.eq_false_iff.mpr fun e => hl (Or.inl e)
  have hp : fetchAddress (step s) = fetchAddress s :=
    Decidable.not_not.mp fun e => hl (Or.inr e)
  have hmem : (step s).memory = s.memory := by
    refine Classical.not_not.mp fun e => ?_
    have ho := (step_memory s e).1
    unfold MovesOn at hm
    rw [ho] at hm
    exact hm trivial
  have hw : word (step s) = word s := word_congr hmem hp
  refine ⟨hh, hp, hw, ?_⟩
  rw [hw]
  unfold MovesOn at hm ⊢
  cases ho : opcode (word s) with
  | none => exact id
  | some o =>
      rw [ho] at hm
      cases o with
      | opIJmp => exact not_not_intro (jump_again hrun ho (Decidable.not_not.mp hm))
      | opSb => exact id
      | _ => exact absurd trivial hm

/-- **It is executed for ever.** -/
theorem spins {s : Machine} (hrun : s.halted = false) (h : ¬ Implemented (word s))
    (hm : ¬ MovesOn (word s) s) (is : List Unit) :
    Always stepRun (fun t => t.halted = false ∧ fetchAddress t = fetchAddress s ∧
      word t = word s) s is := by
  have hstep : ∀ (t : Machine) (i : Unit),
      (t.halted = false ∧ fetchAddress t = fetchAddress s ∧ word t = word s ∧
        ¬ MovesOn (word t) t) → True →
      (stepRun t i).halted = false ∧ fetchAddress (stepRun t i) = fetchAddress s ∧
        word (stepRun t i) = word s ∧ ¬ MovesOn (word (stepRun t i)) (stepRun t i) := by
    intro t _ ht _
    obtain ⟨hh, hp, hw, hmt⟩ := ht
    rw [← hw] at h
    obtain ⟨hh', hp', hw', hmt'⟩ := stays hh h hmt
    exact ⟨hh', hp'.trans hp, hw'.trans hw, hmt'⟩
  have hall := always_of_allSteps hstep is ⟨hrun, rfl, rfl, hm⟩
    (allSteps_of_forall (fun _ _ => trivial) is)
  exact always_mono (fun t ht => ⟨ht.1, ht.2.1, ht.2.2.1⟩) is hall

/-- **Words that are no instruction**: one iteration gets past the word exactly if `MovesOn`, and
    where it does not every later iteration executes it again. -/
theorem unimplemented_iff (s : Machine) (hrun : s.halted = false) (h : ¬ Implemented (word s)) :
    ((((step s).halted = true ∨ (step s).pc ≠ s.pc) ∧
        ((step s).halted = true ∨ fetchAddress (step s) ≠ fetchAddress s)) ↔
      MovesOn (word s) s) ∧
    (¬ MovesOn (word s) s → ∀ is : List Unit,
      Always stepRun (fun t => t.halted = false ∧ fetchAddress t = fetchAddress s ∧
        word t = word s) s is) :=
  ⟨leaves_iff_movesOn hrun h, spins hrun h⟩

/-- A word of the opcode of JALR with `func3` 1 at 4, which jumps to 0x10004: the next iteration
    fetches it from 4 again. -/
example (s : Machine) (hp : s.pc = 4) (h1 : s.reg 1 = 0x10000) :
    ¬ MovesOn 0x00409067 s := by
  have hbase : jalrBase 0x00409067 s = 0x10000 := h1
  have himm : Rv32i.immI 0x00409067 = 4 := by decide
  refine not_not_intro ?_
  rw [hbase, himm, fetchAddress, hp]
  decide

/-- `SLLI x0, x0, 0`, which has no case under OP_I. -/
theorem unimplemented_iff_slli :
    let s := boot (fun _ => 0) [0x13, 0x10, 0x00, 0x00] []
    ((step s).halted = true ∨ (step s).pc ≠ s.pc) ∧
      ((step s).halted = true ∨ fetchAddress (step s) ≠ fetchAddress s) := by
  intro s
  have hw : word s = 0x00001013 := by decide +kernel
  have hn : ¬ Implemented (word s) := by
    intro h
    rw [hw] at h
    cases h with
    | regReg op h => exact absurd h.1 (by decide)
    | regImm op h => exact absurd h.2 (by cases op <;> decide)
    | load op h => exact absurd h.1 (by decide)
    | store n h => exact absurd h.1 (by decide)
    | branch op h => exact absurd h.1 (by decide)
    | jal h => exact absurd h (by decide)
    | jalr h => exact absurd h (by decide)
    | lui h => exact absurd h (by decide)
  have h := unimplemented_iff s rfl hn
  rw [hw] at h
  exact h.1.mpr trivial

/-- The zero word, which an empty image leaves at 0: it is reported and never left. -/
theorem unimplemented_spins :
    ¬ ∀ s : Machine, s.halted = false → ¬ Implemented (word s) →
      ((step s).halted = true ∨ (step s).pc ≠ s.pc) ∧
        ((step s).halted = true ∨ fetchAddress (step s) ≠ fetchAddress s) := by
  intro h
  have hn : ¬ Implemented (word (boot (fun _ => 0) [] [])) := fun hi =>
    hi.opcode_ne_none (by decide +kernel)
  have h0 := h (boot (fun _ => 0) [] []) rfl hn
  exact absurd h0.1 (by decide +kernel)

end SysProg.Vm
