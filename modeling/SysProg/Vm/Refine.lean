/-
  File:      SysProg/Vm/Refine.lean
  Subject:   THE VM AGAINST A MACHINE FOR RV32I (Lib/Hart.lean): when the two
             go the same way.

  The platform is what the loop makes of an address: memory is addressed by
  the low 16 bits, and the virtual routines are devices. `Shows s h` ties a
  state of the VM to a hart: program counter, registers, memory and console.

  Where the instruction set and the code differ, `Kept` says which states do
  not notice. It is put together from the conditions under which each kind of
  word does what it should (Alu.lean, Branch.lean, Jump.lean, LoadStore.lean).

  C leaves open what a shift by 32 or more brings (`Defined`), and what is in
  memory behind the array (`Within`, `Inside`: Bounds.lean). The addresses of
  the hart have 16 bits and come back to 0.

  * `within_iff` -- what an instruction may touch;
  * `shows_goto_iff` -- the frame of an instruction that writes a register;
  * `step_shows_iff` -- one iteration is one step of the hart exactly if the
    word is an instruction and the state keeps it;
  * `run_shows_iff` -- the VM and the hart agree for as long as that is so,
    from the loaded image on and whatever the input is.
-/
import SysProg.Lib.Hart
import SysProg.Vm.Bounds
import SysProg.Vm.Branch
import SysProg.Vm.Progress

namespace SysProg.Vm

open Lib

/-! ## 1. The platform -/

/-- What the routines act on. -/
structure Console where
  stdin : List Char
  stdout : List Char
  halted : Bool

namespace Console

def print (c : Console) (text : List Char) : Console := { c with stdout := c.stdout ++ text }

end Console

/-- `getchar`, on the input alone. -/
def readChar : List Char → BitVec 32 × List Char
  | [] => (-1, [])
  | c :: cs => (BitVec.ofNat 32 c.toNat, cs)

/-- `scanf` with `%d`, on the input alone. -/
def readNumber (stdin : List Char) : Option (BitVec 32) × List Char :=
  let input := stdin.dropWhile isspace
  let rest := skipSign input
  if rest.takeWhile isdigit = [] then (none, rest)
  else (some (BitVec.ofInt 32 (atoi input)), rest.dropWhile isdigit)

/-- The lines of `VIR_DUMP_REG`, from a hart. -/
def hartLines (h : Rv32i.Hart Console) : List Char :=
  "PC = ".toList ++ formatHex h.pc ++ "\n".toList
    ++ (List.finRange 32).flatMap fun i =>
        "R[".toList ++ itoa i.val ++ "] = ".toList ++ formatHex (h.x i) ++ "\n".toList

/-- The routines as devices. -/
def platform : Rv32i.Platform Console where
  index address := address.toNat % memoryMax
  load address c :=
    if address = virRChar then
      let r := readChar c.stdin
      some (some r.1, { c with stdin := r.2 })
    else if address = virRInt then
      let r := readNumber c.stdin
      some (r.1, { c with stdin := r.2 })
    else none
  store address v h :=
    if address = virHalt then
      some { h.env.print "CPU Halt Requested\n".toList with halted := true }
    else if address = virWChar then some (h.env.print (formatChar v))
    else if address = virWInt then some (h.env.print (formatInt v))
    else if address = virWUint then some (h.env.print (formatHex v))
    else if address = virDumpPc then some (h.env.print (formatHex h.pc))
    else if address = virDumpReg then some (h.env.print (hartLines h))
    else if address = virDumpMem then
      some (h.env.print
        (formatHex ((h.memory (v.toNat % memoryMax)).setWidth 32) ++ "\n".toList))
    else none
  stopped c := c.halted

/-- The console of a state. -/
def Machine.console (s : Machine) : Console := ⟨s.stdin, s.stdout, s.halted⟩

/-- **The VM shows the hart.** -/
structure Shows (s : Machine) (h : Rv32i.Hart Console) : Prop where
  pc : s.pc = h.pc
  x : ∀ r : Fin 32, s.reg r.castSucc = h.x r
  memory : s.memory = h.memory
  console : s.console = h.env

/-! ## 2. What leaves the console alone -/

section Console

variable (inst : BitVec 32) (s : Machine)

@[simp] theorem setReg_console (r : Reg) (value : BitVec 32) :
    (s.setReg r value).console = s.console := rfl

@[simp] theorem advance_console : s.advance.console = s.console := rfl

@[simp] theorem regWrite_console (r : Reg) (value : BitVec 32) :
    (regWrite s r value).console = s.console := by
  unfold regWrite
  split <;> rfl

@[simp] theorem memRead_console (address : BitVec 16) (byteLen : Nat) :
    (memRead s address byteLen).2.console = s.console := by
  rw [memRead_snd]
  rfl

theorem writeBytes_console (address : Nat) (data : BitVec 32) :
    ∀ (i n : Nat) (s : Machine), (writeBytes address data i n s).console = s.console
  | _, 0, _ => rfl
  | i, n + 1, s => writeBytes_console address data (i + 1) n (s.poke _ _)

theorem clearBytes_console (start : Nat) :
    ∀ (j n : Nat) (s : Machine), (clearBytes start j n s).console = s.console
  | _, 0, _ => rfl
  | j, n + 1, s => clearBytes_console start (j + 1) n (s.poke _ _)

@[simp] theorem memWrite_console (address : BitVec 16) (data : BitVec 32) (byteLen : Nat) :
    (memWrite s address data byteLen).console = s.console := by
  unfold memWrite
  dsimp only
  split
  · rw [clearBytes_console, writeBytes_console]
  · rw [writeBytes_console]

theorem execR_console : (execR inst s).console = s.console := by
  unfold execR
  dsimp only
  rw [advance_console]
  simp only [apply_ite Machine.console, setLess, execShiftRight, regWrite_console, ite_self]

theorem execI_console : (execI inst s).console = s.console := by
  unfold execI
  dsimp only
  rw [advance_console]
  simp only [apply_ite Machine.console, regWrite_console, ite_self]

theorem execU_console : (execU inst s).console = s.console := by
  rw [execU, advance_console, regWrite_console]

theorem execSb_console : (execSb inst s).console = s.console := by
  unfold execSb
  split <;> rfl

theorem load_console : (load inst s).console = s.console := by
  unfold load loadBytes
  simp only [apply_ite Machine.console, regWrite_console, memRead_console, ite_self]

end Console

/-! ## 3. An instruction that writes a register -/

theorem rd_eq (w : BitVec 32) : rd w = (Rv32i.field w 7).castSucc := rfl

theorem rs1_eq (w : BitVec 32) : rs1 w = (Rv32i.field w 15).castSucc := rfl

theorem rs2_eq (w : BitVec 32) : rs2 w = (Rv32i.field w 20).castSucc := rfl

theorem rd_eq_zero_iff (w : BitVec 32) : rd w = 0 ↔ Rv32i.field w 7 = 0 := by
  rw [rd_eq]
  exact Fin.castSucc_eq_zero_iff

theorem castSucc_ne_rPc (r : Fin 32) : r.castSucc ≠ rPc := by
  intro h
  have hlt := r.isLt
  have hval : r.val = 32 := congrArg Fin.val h
  omega

section Frame

variable {s s' : Machine} {h : Rv32i.Hart Console} {r : Fin 32} {v target : BitVec 32}

/-- **The frame**: if nothing but `r` and the program counter has changed, the state shows the
    hart that has written `v` to `r` and gone to `target` exactly if it has done the same. -/
theorem shows_goto_iff (hs : Shows s h) (hk : Keeps r.castSucc s s')
    (hc : s'.console = s.console) :
    Shows s' ((h.write r v).goto target) ↔
      (r = 0 ∨ s'.reg r.castSucc = v) ∧ s'.pc = target := by
  constructor
  · intro h'
    refine ⟨?_, h'.pc⟩
    by_cases hr : r = 0
    · exact Or.inl hr
    · refine Or.inr ((h'.x r).trans ?_)
      rw [Rv32i.Hart.goto_x, Rv32i.Hart.write_x, if_pos ⟨rfl, hr⟩]
  · intro h'
    obtain ⟨hv, hpc⟩ := h'
    refine ⟨hpc, fun q => ?_, ?_, ?_⟩
    · rw [Rv32i.Hart.goto_x, Rv32i.Hart.write_x]
      by_cases hq : r = q ∧ r ≠ 0
      · rw [if_pos hq, ← hq.1]
        exact hv.resolve_left hq.2
      · rw [if_neg hq, ← hs.x q]
        by_cases hrq : q = r
        · -- the register that is named is register 0
          subst hrq
          have h0 : q = 0 := not_not.mp fun hne => hq ⟨rfl, hne⟩
          subst h0
          exact hk.zero
        · exact hk.other _ (fun e => hrq (Fin.castSucc_inj.mp e)) (castSucc_ne_rPc q)
    · rw [Rv32i.Hart.goto_memory, Rv32i.Hart.write_memory, ← hs.memory, hk.memory]
    · rw [Rv32i.Hart.goto_env, Rv32i.Hart.write_env, ← hs.console, hc]

/-- The same for the next instruction. -/
theorem shows_advance_iff (hs : Shows s h) (hk : Keeps r.castSucc s s')
    (hc : s'.console = s.console) (hpc : s'.pc = s.pc + 4) :
    Shows s' (h.write r v).advance ↔ r = 0 ∨ s'.reg r.castSucc = v := by
  rw [Rv32i.Hart.advance, Rv32i.Hart.write_pc, shows_goto_iff hs hk hc, hpc, hs.pc]
  exact and_iff_left rfl

/-- Only the program counter has changed. -/
theorem shows_pc_iff (hs : Shows s h) (hk : Keeps rPc s s') (hc : s'.console = s.console) :
    Shows s' (h.goto target) ↔ s'.pc = target := by
  constructor
  · intro h'
    exact h'.pc
  · intro hpc
    refine ⟨hpc, fun q => ?_, ?_, ?_⟩
    · rw [Rv32i.Hart.goto_x, ← hs.x q]
      exact hk.other _ (castSucc_ne_rPc q) (castSucc_ne_rPc q)
    · rw [Rv32i.Hart.goto_memory, ← hs.memory, hk.memory]
    · rw [Rv32i.Hart.goto_env, ← hs.console, hc]

/-- Reading memory changes nothing that is shown. -/
theorem shows_memRead (hs : Shows s h) (address : BitVec 16) (n : Nat) :
    Shows (memRead s address n).2 h :=
  ⟨(congrFun (memRead_reg s address n) rPc).trans hs.pc,
    fun r => (congrFun (memRead_reg s address n) _).trans (hs.x r),
    (memRead_memory s address n).trans hs.memory, (memRead_console s address n).trans hs.console⟩

end Frame

/-! ## 4. The word and the memory -/

theorem memRead_wordAt (s : Machine) (address : BitVec 16) {n : Nat} (hn : n ≤ 4) :
    (memRead s address n).1 =
      ((Rv32i.wordAt s.memory address.toNat).setWidth (8 * n)).setWidth 32 :=
  memRead_stored fun i hi => (Rv32i.byteOf_wordAt s.memory address.toNat (by omega)).symm

theorem setWidth_index (address : BitVec 32) :
    (address.setWidth 16).toNat = platform.index address := BitVec.toNat_setWidth ..

/-- Bytes stand in a row up to the end of the array. -/
theorem platform_inRow {address : BitVec 32} {n : Nat}
    (h : platform.index address + n ≤ memoryMax) : platform.InRow address n := by
  change address.toNat % memoryMax + n ≤ memoryMax at h
  intro i hi
  show (address + BitVec.ofNat 32 i).toNat % memoryMax = address.toNat % memoryMax + i
  rw [BitVec.toNat_add, BitVec.toNat_ofNat]
  unfold memoryMax at *
  omega

theorem word_eq {s : Machine} {h : Rv32i.Hart Console} (hs : Shows s h)
    (hin : platform.index s.pc + 4 ≤ memoryMax) : word s = h.word platform := by
  rw [hs.pc] at hin
  rw [word, fetch, memRead_wordAt s _ (Nat.le_refl 4), setWidth_index, hs.pc, hs.memory,
    Rv32i.Hart.word, Rv32i.Platform.wordAt_bytesAt _ (platform_inRow hin)]
  show ((Rv32i.wordAt _ _).setWidth 32).setWidth 32 = _
  rw [BitVec.setWidth_eq, BitVec.setWidth_eq]

/-! ## 5. The states that keep an instruction -/

/-- A JALR that goes where it should: its base is read as it was and the target is even, or the
    link in place of the base leads to the same even target. -/
def JalrKept (rd rs1 : Fin 32) (base offset pc : BitVec 32) : Prop :=
  (rd.val = 0 ∨ rd ≠ rs1 ∨ base = pc + 4) ∧ (base + offset).getLsbD 0 = false ∨
    (rd.val ≠ 0 ∧ rd = rs1) ∧ base = pc + 5 ∧ (base + offset).getLsbD 0 = true

/-- **The state keeps the instruction `i` of the word `w`.** -/
def Kept (s : Machine) (w : BitVec 32) : Rv32i.Instr → Prop
  | .reg op rd rs1 rs2 =>
      rd.val = 0 ∨ RegRegKept op rd.castSucc rs1.castSucc rs2.castSucc (s.reg rs1.castSucc).toNat
        (s.reg rs2.castSucc).toNat
  | .imm op rd rs1 value => rd.val = 0 ∨ RegImmKept op (s.reg rs1.castSucc) value
  -- `scanf` is not called for register 0
  | .load _ rd rs1 offset => s.reg rs1.castSucc + offset = virRInt → rd.val = 0 →
      (readNumber s.stdin).2 = s.stdin
  | .store n rs1 _ offset => s.reg rs1.castSucc + offset ∈ storeRoutines ∨
      NeighboursZero n ((s.reg rs1.castSucc + offset).toNat % memoryMax) s.memory
  | .branch op rs1 rs2 _ => BranchKept op w (s.reg rs1.castSucc) (s.reg rs2.castSucc)
  | .jal _ _ => JumpKept w
  | .jalr rd rs1 offset => JalrKept rd rs1 (s.reg rs1.castSucc) offset s.pc
  | .lui rd _ => rd.val = 0 ∨ UpperKept (w.extractLsb' 12 20)

/-- The word is an instruction that the state keeps. -/
def Faithful (s : Machine) : Prop := ∃ i, Rv32i.Decodes (word s) i ∧ Kept s (word s) i

/-- No shift by 32 or more, which C leaves open. -/
def Defined (s : Machine) : Prop :=
  ∀ op : Rv32i.ROp, op.EncodedBy (word s) → op.isShift = true →
    (s.reg (rs2 (word s))).toNat < 32

/-- A load or store that goes to memory stays in the array. -/
def InstrWithin (s : Machine) : Rv32i.Instr → Prop
  | .load op _ rs1 offset => s.reg rs1.castSucc + offset ∉ loadRoutines →
      platform.index (s.reg rs1.castSucc + offset) + op.width.bytes ≤ memoryMax
  | .store _ rs1 _ offset => s.reg rs1.castSucc + offset ∉ storeRoutines →
      platform.index (s.reg rs1.castSucc + offset) + 4 ≤ memoryMax
  | _ => True

theorem loadWidth_eq (op : Rv32i.LoadOp) : loadWidth op.funct3 = some op.width.bytes := by
  cases op <;> rfl

theorem mem_storeFunc3 (n : Rv32i.Width) : n.funct3 ∈ [sbFunc3, shFunc3, swFunc3] := by
  cases n <;> decide

/-- **What an instruction may touch**: the word itself, and what it loads or stores. -/
theorem within_iff {s : Machine} (hrun : s.halted = false) {i : Rv32i.Instr}
    (hi : Rv32i.Decodes (word s) i) :
    Within s ↔ platform.index s.pc + 4 ≤ memoryMax ∧ InstrWithin s i := by
  have hfetch : byteIndex s.pc = platform.index s.pc := setWidth_index s.pc
  have hother : ∀ {o : Opcode}, (word s).extractLsb' 0 7 = o.bits → o ≠ .opIMem → o ≠ .opS →
      (Within s ↔ platform.index s.pc + 4 ≤ memoryMax ∧ True) := by
    intro o ho hl hst
    have hno : ∀ {o' : Opcode}, o ≠ o' → opcode (word s) ≠ some o' := by
      intro o' hne e
      rw [opcode_of_bits ho] at e
      exact hne (Option.some.inj e)
    rw [Within, forall_prop_of_true hrun, hfetch, and_true]
    exact and_iff_left ⟨fun e => absurd e (hno hl), fun e => absurd e (hno hst)⟩
  cases hi with
  | reg op h => exact hother (o := .opR) h.1 (by decide) (by decide)
  | imm op h => exact hother (o := .opI) h.1 (by decide) (by decide)
  | branch op h => exact hother (o := .opSb) h.1 (by decide) (by decide)
  | jal h => exact hother (o := .opUj) h (by decide) (by decide)
  | jalr h => exact hother (o := .opIJmp) h.1 (by decide) (by decide)
  | lui h => exact hother (o := .opU) h (by decide) (by decide)
  | load op h =>
      have ho : opcode (word s) = some .opIMem := opcode_of_bits h.1
      have hf : func3 (word s) = op.funct3 := h.2
      rw [Within, forall_prop_of_true hrun, hfetch, ho, forall_prop_of_true rfl, LoadWithin, hf,
        loadWidth_eq, loadAddress_eq, byteIndex, setWidth_index, rs1_eq, InstrWithin]
      simp
  | store n h =>
      have ho : opcode (word s) = some .opS := opcode_of_bits h.1
      have hf : func3 (word s) ∈ [sbFunc3, shFunc3, swFunc3] := by
        rw [show func3 (word s) = n.funct3 from h.2]
        exact mem_storeFunc3 n
      rw [Within, forall_prop_of_true hrun, hfetch, ho, StoreWithin, forall_prop_of_true hf,
        storeAddress_eq, byteIndex, setWidth_index, rs1_eq, InstrWithin]
      simp

/-! ## 6. Jumps -/

/-- A number without its lowest bit. -/
theorem and_not_one (t : BitVec 32) : t &&& ~~~1#32 = if t.getLsbD 0 then t - 1 else t := by
  have hbit : t &&& 1#32 = if t.getLsbD 0 then 1 else 0 := by
    rw [BitVec.and_one_eq_setWidth_ofBool_getLsbD]
    cases t.getLsbD 0 <;> rfl
  have hsplit : (t &&& ~~~1#32) + (t &&& 1#32) = t := by
    have hzero : (t &&& ~~~1#32) &&& (t &&& 1#32) = 0#32 := by
      apply BitVec.eq_of_getLsbD_eq
      intro i hi
      simp only [BitVec.getLsbD_and, BitVec.getLsbD_not]
      cases (1#32).getLsbD i <;> simp
    rw [BitVec.add_eq_or_of_and_eq_zero _ _ hzero]
    apply BitVec.eq_of_getLsbD_eq
    intro i hi
    simp only [BitVec.getLsbD_or, BitVec.getLsbD_and, BitVec.getLsbD_not, decide_eq_true hi]
    cases (1#32).getLsbD i <;> simp
  rw [hbit] at hsplit
  split
  · rename_i h
    rw [if_pos h] at hsplit
    calc t &&& ~~~1#32 = (t &&& ~~~1#32) + 1 - 1 := (BitVec.add_sub_cancel _ _).symm
      _ = t - 1 := by rw [hsplit]
  · rename_i h
    rw [if_neg h] at hsplit
    exact (BitVec.add_zero _).symm.trans hsplit

theorem ne_sub_one (a : BitVec 32) : a ≠ a - 1 := by
  intro e
  bv_omega

/-- Where a JALR goes and where it should. -/
theorem jalr_goes_iff (w : BitVec 32) (s : Machine) :
    jalrBase w s + Rv32i.immI w = (s.reg (rs1 w) + Rv32i.immI w) &&& ~~~1#32 ↔
      JalrKept (Rv32i.field w 7) (Rv32i.field w 15) (s.reg (rs1 w)) (Rv32i.immI w) s.pc := by
  have hfields : rd w = rs1 w ∧ (rd w).val ≠ 0 ↔
      (Rv32i.field w 7).val ≠ 0 ∧ Rv32i.field w 7 = Rv32i.field w 15 := by
    rw [rd_eq, rs1_eq, Fin.castSucc_inj, and_comm]
    rfl
  rw [and_not_one]
  unfold JalrKept jalrBase
  generalize Rv32i.immI w = offset
  generalize s.reg (rs1 w) = base
  by_cases hold : (Rv32i.field w 7).val ≠ 0 ∧ Rv32i.field w 7 = Rv32i.field w 15
  · -- the link is in place of the base
    have hlink : base = s.pc + 5 ↔ s.pc + 4 + offset = base + offset - 1 := by
      constructor
      · intro e
        bv_omega
      · intro e
        bv_omega
    rw [if_pos (hfields.mpr hold), and_iff_right hold, or_iff_right hold.1,
      or_iff_right (not_not_intro hold.2), hlink]
    cases hbit : (base + offset).getLsbD 0 with
    | true => simp
    | false => simp [eq_comm]
  · have hread : (Rv32i.field w 7).val = 0 ∨ Rv32i.field w 7 ≠ Rv32i.field w 15 ∨
        base = s.pc + 4 := by
      by_cases h0 : (Rv32i.field w 7).val = 0
      · exact Or.inl h0
      · exact Or.inr (Or.inl fun e => hold ⟨h0, e⟩)
    rw [if_neg (mt hfields.mp hold), and_iff_right hread, or_iff_left fun h => hold h.1]
    cases hbit : (base + offset).getLsbD 0 with
    | true => simpa using ne_sub_one (base + offset)
    | false => simp

/-! ## 7. The cases of the switch -/

section Cases

variable {w : BitVec 32} {s : Machine} {h : Rv32i.Hart Console}

/-- The register that is named is register 0, or it is not. -/
theorem rd_or_congr {p q : Prop} (hpq : rd w ≠ 0 → (p ↔ q)) :
    (Rv32i.field w 7 = 0 ∨ p) ↔ ((Rv32i.field w 7).val = 0 ∨ q) := by
  rw [← Fin.val_eq_zero_iff]
  exact or_congr_right' fun h0 => hpq fun e => h0 (congrArg Fin.val e)

theorem shows_reg_iff (hs : Shows s h) {op : Rv32i.ROp} (he : op.EncodedBy w)
    (hshift : op.isShift = true → (s.reg (rs2 w)).toNat < 32) :
    Shows (execR w s)
        (h.exec platform (.reg op (Rv32i.field w 7) (Rv32i.field w 15) (Rv32i.field w 20))) ↔
      Kept s w (.reg op (Rv32i.field w 7) (Rv32i.field w 15) (Rv32i.field w 20)) := by
  have hframe := fun v => shows_advance_iff (r := Rv32i.field w 7) (v := v) hs (keeps_execR w s)
    (execR_console w s) execR_pc
  rw [Rv32i.Hart.exec, hframe, ← hs.x, ← hs.x]
  exact rd_or_congr fun hrd => execR_iff he hrd hshift

theorem shows_imm_iff (hs : Shows s h) {op : Rv32i.IOp} (he : op.EncodedBy w) :
    Shows (execI w s)
        (h.exec platform (.imm op (Rv32i.field w 7) (Rv32i.field w 15) (Rv32i.immI w))) ↔
      Kept s w (.imm op (Rv32i.field w 7) (Rv32i.field w 15) (Rv32i.immI w)) := by
  have hframe := fun v => shows_advance_iff (r := Rv32i.field w 7) (v := v) hs (keeps_execI w s)
    (execI_console w s) execI_pc
  rw [Rv32i.Hart.exec, hframe, ← hs.x]
  refine rd_or_congr fun hrd => ?_
  rw [← rd_eq, execI_reg he hrd]
  exact immWritten_iff

theorem shows_lui_iff (hs : Shows s h) :
    Shows (execU w s) (h.exec platform (.lui (Rv32i.field w 7) (Rv32i.immU w))) ↔
      Kept s w (.lui (Rv32i.field w 7) (Rv32i.immU w)) := by
  have hframe := fun v => shows_advance_iff (r := Rv32i.field w 7) (v := v) hs (keeps_execU w s)
    (execU_console w s) execU_pc
  rw [Rv32i.Hart.exec, hframe]
  refine rd_or_congr fun hrd => ?_
  rw [← rd_eq, execU_reg hrd]
  exact upper_eq_iff w

/-- A jump writes the link; what is left is where it goes. -/
theorem shows_jump_iff (hs : Shows s h) (goal target : BitVec 32) :
    Shows ((regWrite s (rd w) (s.pc + 4)).setReg rPc goal)
        ((h.write (Rv32i.field w 7) (h.pc + 4)).goto target) ↔ goal = target := by
  have hk : Keeps (rd w) s ((regWrite s (rd w) (s.pc + 4)).setReg rPc goal) :=
    (keeps_regWrite _ _ _).setPc _
  have hc : ((regWrite s (rd w) (s.pc + 4)).setReg rPc goal).console = s.console := by
    rw [setReg_console, regWrite_console]
  have hlink : Rv32i.field w 7 = 0 ∨ ((regWrite s (rd w) (s.pc + 4)).setReg rPc goal).reg
      (Rv32i.field w 7).castSucc = h.pc + 4 := by
    by_cases hrd : rd w = 0
    · exact Or.inl ((rd_eq_zero_iff w).mp hrd)
    · rw [← hs.pc]
      exact Or.inr (link_reg w s hrd _ _)
  rw [shows_goto_iff (r := Rv32i.field w 7) hs hk hc, and_iff_right hlink, Machine.setPc_pc]

theorem shows_jal_iff (hs : Shows s h) :
    Shows (execUj w s) (h.exec platform (.jal (Rv32i.field w 7) (Rv32i.immJ w))) ↔
      Kept s w (.jal (Rv32i.field w 7) (Rv32i.immJ w)) := by
  rw [Rv32i.Hart.exec, execUj, shows_jump_iff hs, regWrite_pc, hs.pc, BitVec.add_right_inj]
  exact jumpOffset_eq_iff w

theorem shows_jalr_iff (hs : Shows s h) :
    Shows (execIJmp w s)
        (h.exec platform (.jalr (Rv32i.field w 7) (Rv32i.field w 15) (Rv32i.immI w))) ↔
      Kept s w (.jalr (Rv32i.field w 7) (Rv32i.field w 15) (Rv32i.immI w)) := by
  have hpc := execIJmp_pc w s
  rw [execIJmp, Machine.setPc_pc] at hpc
  rw [Rv32i.Hart.exec, execIJmp, shows_jump_iff hs, hpc, ← hs.x]
  exact jalr_goes_iff w s

theorem shows_branch_iff (hs : Shows s h) {op : Rv32i.BOp} (he : op.EncodedBy w) :
    Shows (execSb w s)
        (h.exec platform (.branch op (Rv32i.field w 15) (Rv32i.field w 20) (Rv32i.immB w))) ↔
      Kept s w (.branch op (Rv32i.field w 15) (Rv32i.field w 20) (Rv32i.immB w)) := by
  have htaken : branchTaken (func3 w) (s.reg (rs1 w)) (s.reg (rs2 w)) =
      some (compared op (s.reg (rs1 w)) (s.reg (rs2 w))) := by
    rw [show func3 w = op.funct3 from he.2, branchTaken_eq]
  have hexec : h.exec platform (.branch op (Rv32i.field w 15) (Rv32i.field w 20) (Rv32i.immB w)) =
      h.goto (if op.taken (s.reg (rs1 w)) (s.reg (rs2 w)) then s.pc + Rv32i.immB w
        else s.pc + 4) := by
    rw [Rv32i.Hart.exec, ← hs.x, ← hs.x, ← hs.pc, rs1_eq, rs2_eq]
    split
    · rfl
    · rw [Rv32i.Hart.advance, ← hs.pc]
  rw [hexec, shows_pc_iff hs (keeps_execSb w s) (execSb_console w s), execSb_pc htaken]
  exact branch_goes_iff op w _ _ _

theorem getchar_eq (s : Machine) :
    getchar s = ((readChar s.stdin).1, { s with stdin := (readChar s.stdin).2 }) := by
  obtain ⟨memory, reg, stdin, stdout, halted, touched⟩ := s
  cases stdin <;> rfl

theorem scanfInt_eq (s : Machine) :
    scanfInt s = ((readNumber s.stdin).1, { s with stdin := (readNumber s.stdin).2 }) := by
  unfold scanfInt readNumber
  dsimp only
  split <;> rfl

/-- The input is read, and nothing else happens. -/
theorem shows_stdin (hs : Shows s h) (rest : List Char) :
    Shows { s with stdin := rest } { h with env := { h.env with stdin := rest } } := by
  refine ⟨hs.pc, hs.x, hs.memory, ?_⟩
  show (⟨rest, s.stdout, s.halted⟩ : Console) = _
  rw [← hs.console]
  rfl

theorem shows_print (hs : Shows s h) (text : List Char) :
    Shows (s.print text) { h with env := h.env.print text } := by
  refine ⟨hs.pc, hs.x, hs.memory, ?_⟩
  rw [← hs.console]
  rfl

theorem shows_advance (hs : Shows s h) : Shows s.advance h.advance := by
  refine ⟨?_, fun r => ?_, hs.memory, hs.console⟩
  · rw [Machine.advance_pc, hs.pc, Rv32i.Hart.advance_pc]
  · rw [Machine.advance_reg_of_ne _ (castSucc_ne_rPc r), hs.x, Rv32i.Hart.advance_x]

theorem shows_write (hs : Shows s h) (v : BitVec 32) :
    Shows (regWrite s (rd w) v).advance (h.write (Rv32i.field w 7) v).advance := by
  have hframe := shows_advance_iff (r := Rv32i.field w 7) (v := v) hs
    (keeps_regWrite (rd w) s v).advance
  refine (hframe ?_ ?_).mpr ?_
  · rw [advance_console, regWrite_console]
  · rw [Machine.advance_pc, regWrite_pc]
  · by_cases hrd : rd w = 0
    · exact Or.inl ((rd_eq_zero_iff w).mp hrd)
    · refine Or.inr ?_
      rw [← rd_eq, advance_rd, regWrite_reg_self s v hrd]

/-- A load from memory brings what it should. -/
theorem converted_wordAt (op : Rv32i.LoadOp) (s : Machine) (address : BitVec 32) :
    converted op (memRead s (address.setWidth 16) op.width.bytes).1 =
      op.extend (Rv32i.wordAt s.memory (platform.index address)) := by
  have hle : op.width.bytes ≤ 4 := by cases op <;> decide
  rw [memRead_wordAt s _ hle, converted_stored, setWidth_index]

theorem shows_readChar (hs : Shows s h) (op : Rv32i.LoadOp) (ha : loadAddress w s = virRChar) :
    Shows (execIMem w s) (h.loadFrom platform op (Rv32i.field w 7) virRChar) := by
  have hload : platform.load virRChar h.env =
      some (some (readChar s.stdin).1, { h.env with stdin := (readChar s.stdin).2 }) := by
    rw [← hs.console]
    rfl
  unfold execIMem
  dsimp only
  rw [if_pos ha, Rv32i.Hart.loadFrom, hload, getchar_eq]
  exact shows_write (shows_stdin hs _) _

/-- The input the hart has read, and the VM has not. -/
theorem shows_unread_iff (hs : Shows s h) (rest : List Char) :
    Shows s { h with env := { h.env with stdin := rest } } ↔ rest = s.stdin := by
  constructor
  · intro h'
    exact (congrArg Console.stdin h'.console).symm
  · intro e
    rw [e]
    exact shows_stdin hs s.stdin

theorem shows_advance_iff_shows : Shows s.advance h.advance ↔ Shows s h := by
  refine ⟨fun h' => ⟨?_, fun r => ?_, h'.memory, h'.console⟩, shows_advance⟩
  · have hpc := h'.pc
    rw [Machine.advance_pc, Rv32i.Hart.advance_pc] at hpc
    exact (BitVec.add_left_inj _).mp hpc
  · have hx := h'.x r
    rw [Machine.advance_reg_of_ne _ (castSucc_ne_rPc r)] at hx
    exact hx

/-- `scanf` is called unless the register is register 0. -/
theorem shows_readInt_iff (hs : Shows s h) (op : Rv32i.LoadOp) (ha : loadAddress w s = virRInt) :
    Shows (execIMem w s) (h.loadFrom platform op (Rv32i.field w 7) virRInt) ↔
      (Rv32i.field w 7 = 0 → (readNumber s.stdin).2 = s.stdin) := by
  have hload : platform.load virRInt h.env =
      some ((readNumber s.stdin).1, { h.env with stdin := (readNumber s.stdin).2 }) := by
    rw [← hs.console]
    rfl
  have hrest := shows_stdin hs (readNumber s.stdin).2
  have hexec : execIMem w s = (readInt w s).advance := by
    unfold execIMem
    dsimp only
    rw [if_neg (by rw [ha]; decide), if_pos ha]
  rw [hexec, Rv32i.Hart.loadFrom, hload, readInt, scanfInt_eq]
  by_cases hrd : rd w = 0
  · have h0 : Rv32i.field w 7 = 0 := (rd_eq_zero_iff w).mp hrd
    have hval : ¬ (rd w).val ≠ 0 := not_not_intro (congrArg Fin.val hrd)
    rw [if_neg hval, h0, forall_prop_of_true rfl, ← shows_unread_iff hs]
    cases (readNumber s.stdin).1 with
    | none => exact shows_advance_iff_shows
    | some v =>
        dsimp only
        rw [Rv32i.Hart.write_zero]
        exact shows_advance_iff_shows
  · refine iff_of_true ?_ fun h0 => absurd ((rd_eq_zero_iff w).mpr h0) hrd
    have hval : (rd w).val ≠ 0 := fun e => hrd (Fin.ext e)
    rw [if_pos hval]
    cases (readNumber s.stdin).1 with
    | none => exact shows_advance hrest
    | some v =>
        have hw := shows_write (w := w) hrest v
        rw [regWrite, if_pos hrd] at hw
        exact hw

theorem shows_load (hs : Shows s h) {op : Rv32i.LoadOp} (he : op.EncodedBy w)
    (ha : loadAddress w s ∉ loadRoutines)
    (hin : platform.index (loadAddress w s) + op.width.bytes ≤ memoryMax) :
    Shows (execIMem w s) (h.loadFrom platform op (Rv32i.field w 7) (loadAddress w s)) := by
  have hne : loadAddress w s ≠ virRChar ∧ loadAddress w s ≠ virRInt := by
    simpa [loadRoutines] using ha
  have hload : platform.load (loadAddress w s) h.env = none := by
    show (if loadAddress w s = virRChar then _ else _) = none
    rw [if_neg hne.1, if_neg hne.2]
  have hframe := shows_advance_iff (r := Rv32i.field w 7)
    (v := op.extend (Rv32i.wordAt (platform.bytesAt h.memory (loadAddress w s)) 0)) hs
    (keeps_execIMem w s)
  rw [Rv32i.Hart.loadFrom, hload]
  refine (hframe ?_ (execIMem_pc w s)).mpr ?_
  · rw [execIMem_load ha, advance_console, load_console]
  · by_cases hrd : rd w = 0
    · exact Or.inl ((rd_eq_zero_iff w).mp hrd)
    · refine Or.inr ?_
      rw [← rd_eq, execIMem_load ha, advance_rd, load_reg he hrd, converted_wordAt, hs.memory,
        Rv32i.Platform.extend_bytesAt _ (platform_inRow hin)]

theorem shows_load_iff (hs : Shows s h) {op : Rv32i.LoadOp} (he : op.EncodedBy w)
    (hin : InstrWithin s (.load op (Rv32i.field w 7) (Rv32i.field w 15)
      ((Rv32i.offsetI w).signExtend 32))) :
    Shows (execIMem w s) (h.exec platform (.load op (Rv32i.field w 7) (Rv32i.field w 15)
        ((Rv32i.offsetI w).signExtend 32))) ↔
      Kept s w (.load op (Rv32i.field w 7) (Rv32i.field w 15)
        ((Rv32i.offsetI w).signExtend 32)) := by
  have haddr : h.x (Rv32i.field w 15) + (Rv32i.offsetI w).signExtend 32 = loadAddress w s := by
    rw [loadAddress_eq, ← hs.x, rs1_eq]
  rw [InstrWithin, hs.x, haddr] at hin
  rw [Rv32i.Hart.exec, haddr, Kept, hs.x, haddr]
  by_cases hchar : loadAddress w s = virRChar
  · refine iff_of_true ?_ fun e => absurd (hchar.symm.trans e) (by decide)
    rw [hchar]
    exact shows_readChar hs op hchar
  by_cases hint : loadAddress w s = virRInt
  · rw [forall_prop_of_true hint, hint, Fin.val_eq_zero_iff]
    exact shows_readInt_iff hs op hint
  · have hmem : loadAddress w s ∉ loadRoutines := by
      simp [loadRoutines, hchar, hint]
    exact iff_of_true (shows_load hs he hmem (hin hmem)) fun e => absurd e hint

theorem registerLines_eq (hs : Shows s h) : registerLines s = hartLines h := by
  unfold registerLines hartLines
  rw [hs.pc]
  simp only [hs.x]

theorem memRead_byte (s : Machine) (v : BitVec 32) :
    (memRead s (v.setWidth 16) 1).1 = (s.memory (v.toNat % memoryMax)).setWidth 32 := by
  have hbyte : (Rv32i.wordAt s.memory (platform.index v)).setWidth 8 =
      s.memory (v.toNat % memoryMax) := Rv32i.byteOf_wordAt s.memory _ (show 0 < 4 by decide)
  rw [memRead_wordAt s _ (by decide), setWidth_index]
  exact congrArg _ hbyte

/-- A store to a routine's address is one to its device. -/
theorem shows_routine (hs : Shows s h) (hrun : s.halted = false) (n : Rv32i.Width)
    (ha : storeAddress w s ∈ storeRoutines) :
    Shows (execS w s) (h.storeTo platform n (storeAddress w s) (s.reg (rs2 w))) := by
  have hstopped : h.env.halted = false := by
    rw [← hs.console]
    exact hrun
  -- every routine but the one that halts prints something and goes on
  have hprint : ∀ (s₁ : Machine) (text : List Char), Shows s₁ h →
      platform.store (storeAddress w s) (s.reg (rs2 w)) h = some (h.env.print text) →
      execS w s = (s₁.print text).advance →
      Shows (execS w s) (h.storeTo platform n (storeAddress w s) (s.reg (rs2 w))) := by
    intro s₁ text hs₁ hstore hexec
    have hgo : ¬ platform.stopped (h.env.print text) = true := Bool.eq_false_iff.mp hstopped
    rw [hexec, Rv32i.Hart.storeTo, hstore]
    dsimp only
    rw [if_neg hgo]
    exact shows_advance (shows_print hs₁ text)
  have hexec := execS.eq_def w s
  simp only [storeRoutines, List.mem_cons, List.not_mem_nil, or_false] at ha
  obtain ha | ha | ha | ha | ha | ha | ha := ha
  · rw [ha] at hexec
    exact hprint s (formatChar (s.reg (rs2 w))) hs (by rw [ha]; rfl) hexec
  · rw [ha] at hexec
    exact hprint s (formatInt (s.reg (rs2 w))) hs (by rw [ha]; rfl) hexec
  · rw [ha] at hexec
    exact hprint s (formatHex (s.reg (rs2 w))) hs (by rw [ha]; rfl) hexec
  · rw [ha] at hexec ⊢
    rw [hexec]
    -- the hart stays at its instruction, as the VM does
    have hconsole : { s.console.print "CPU Halt Requested\n".toList with halted := true } =
        { h.env.print "CPU Halt Requested\n".toList with halted := true } := by
      rw [hs.console]
    exact ⟨hs.pc, hs.x, hs.memory, hconsole⟩
  · rw [ha] at hexec
    exact hprint s (formatHex s.pc) hs (by rw [ha, hs.pc]; rfl) hexec
  · rw [ha] at hexec
    exact hprint s (registerLines s) hs (by rw [ha, registerLines_eq hs]; rfl) hexec
  · rw [ha] at hexec
    refine hprint (memRead s ((s.reg (rs2 w)).setWidth 16) 1).2 _ (shows_memRead hs _ _) ?_ hexec
    rw [ha, memRead_byte, hs.memory]
    rfl

theorem shows_store_iff (hs : Shows s h) (hrun : s.halted = false) {n : Rv32i.Width}
    (he : n.StoredBy w) (hin : InstrWithin s (.store n (Rv32i.field w 15) (Rv32i.field w 20)
      ((Rv32i.offsetS w).signExtend 32))) :
    Shows (execS w s) (h.exec platform (.store n (Rv32i.field w 15) (Rv32i.field w 20)
        ((Rv32i.offsetS w).signExtend 32))) ↔
      Kept s w (.store n (Rv32i.field w 15) (Rv32i.field w 20)
        ((Rv32i.offsetS w).signExtend 32)) := by
  have haddr : h.x (Rv32i.field w 15) + (Rv32i.offsetS w).signExtend 32 = storeAddress w s := by
    rw [storeAddress_eq, ← hs.x, rs1_eq]
  rw [InstrWithin, hs.x, haddr] at hin
  rw [Rv32i.Hart.exec, Kept, hs.x, haddr, ← hs.x, ← rs2_eq]
  by_cases hr : storeAddress w s ∈ storeRoutines
  · exact iff_of_true (shows_routine hs hrun n hr) (Or.inl hr)
  · have hstore : platform.store (storeAddress w s) (s.reg (rs2 w)) h = none := by
      simp only [storeRoutines, List.mem_cons, List.not_mem_nil, or_false, not_or] at hr
      obtain ⟨h1, h2, h3, h4, h5, h6, h7⟩ := hr
      simp only [platform, h1, h2, h3, h4, h5, h6, h7, if_false]
    have hle : n.bytes ≤ 4 := by cases n <;> decide
    have hrow : platform.InRow (storeAddress w s) n.bytes :=
      platform_inRow (by have := hin hr; omega)
    rw [or_iff_right hr, execS_store w s hr, store_eq he, Rv32i.Hart.storeTo, hstore]
    show Shows _ _ ↔ NeighboursZero n (platform.index (storeAddress w s)) s.memory
    dsimp only
    rw [Rv32i.Platform.storeAt_eq _ _ hrow, ← setWidth_index, shows_advance_iff_shows,
      ← memWrite_stores_iff s _ (s.reg (rs2 w)), ← Rv32i.eq_storeBytes_iff]
    constructor
    · intro h'
      rw [hs.memory]
      exact h'.memory
    · intro hm
      refine ⟨?_, fun r => ?_, ?_, ?_⟩
      · exact (congrFun (memWrite_reg s _ _ _) rPc).trans hs.pc
      · rw [memWrite_reg]
        exact hs.x r
      · rw [hm, hs.memory]
      · rw [memWrite_console]
        exact hs.console

end Cases

/-! ## 8. One iteration and the run -/

section Run

variable {s : Machine} {h : Rv32i.Hart Console}

theorem shows_case_iff (hs : Shows s h) (hrun : s.halted = false) (hdef : Defined s)
    {i : Rv32i.Instr} (hi : Rv32i.Decodes (word s) i) (hin : InstrWithin s i) :
    Shows (step s) (h.exec platform i) ↔ Kept s (word s) i := by
  -- the word is executed in the state that has been fetched from, which shows the same hart
  have hf : Shows (fetch s).2 h := shows_memRead hs _ _
  have hkept : Kept (fetch s).2 (word s) i ↔ Kept s (word s) i := by
    unfold Kept
    rw [fetch_reg, fetch_pc, fetch_memory]
    rfl
  have hin' : InstrWithin (fetch s).2 i := by
    unfold InstrWithin at hin ⊢
    rw [fetch_reg]
    exact hin
  have hrun' : (fetch s).2.halted = false := by
    rw [fetch, memRead_snd]
    exact hrun
  rw [← hkept]
  cases hi with
  | reg op he =>
      rw [step_case (o := .opR) hrun he.1]
      refine shows_reg_iff hf he fun hop => ?_
      rw [fetch_reg]
      exact hdef op he hop
  | imm op he =>
      rw [step_case (o := .opI) hrun he.1]
      exact shows_imm_iff hf he
  | load op he =>
      rw [step_case (o := .opIMem) hrun he.1]
      exact shows_load_iff hf he hin'
  | store n he =>
      rw [step_case (o := .opS) hrun he.1]
      exact shows_store_iff hf hrun' he hin'
  | branch op he =>
      rw [step_case (o := .opSb) hrun he.1]
      exact shows_branch_iff hf he
  | jal he =>
      rw [step_case (o := .opUj) hrun he]
      exact shows_jal_iff hf
  | jalr he =>
      rw [step_case (o := .opIJmp) hrun he.1]
      exact shows_jalr_iff hf
  | lui he =>
      rw [step_case (o := .opU) hrun he]
      exact shows_lui_iff hf

/-- **One iteration is one step of the hart exactly if the word is an instruction and the state
    keeps it.** -/
theorem step_shows_iff (hs : Shows s h) (hrun : s.halted = false) (hdef : Defined s)
    (hin : Within s) : (∃ h', h.next platform = some h' ∧ Shows (step s) h') ↔ Faithful s := by
  have hrun' : platform.stopped h.env = false := by
    rw [← hs.console]
    exact hrun
  have hword : word s = h.word platform := by
    refine word_eq hs ?_
    rw [← setWidth_index]
    exact (hin hrun).1
  constructor
  · intro hnext
    obtain ⟨h', hn, hs'⟩ := hnext
    rw [Rv32i.Hart.next, hrun', if_neg Bool.false_ne_true, ← hword] at hn
    obtain ⟨i, hi, rfl⟩ := Option.map_eq_some_iff.mp hn
    have hd := Rv32i.decode_eq_some_iff.mp hi
    exact ⟨i, hd, (shows_case_iff hs hrun hdef hd ((within_iff hrun hd).mp hin).2).mp hs'⟩
  · intro hf
    obtain ⟨i, hd, hk⟩ := hf
    refine ⟨h.exec platform i, ?_,
      (shows_case_iff hs hrun hdef hd ((within_iff hrun hd).mp hin).2).mpr hk⟩
    rw [hword] at hd
    exact Rv32i.Hart.next_of_decodes hrun' hd

/-- The same of any state: once it has been stopped, neither does anything. -/
theorem step_lockstep_iff (hs : Shows s h) (hdef : Defined s) (hin : Within s) :
    (∃ h', h.next platform = some h' ∧ Shows (step s) h') ↔ s.halted = true ∨ Faithful s := by
  cases hh : s.halted with
  | false =>
      rw [step_shows_iff hs hh hdef hin]
      simp
  | true =>
      refine iff_of_true ⟨h, ?_, ?_⟩ (Or.inl rfl)
      · have hstop : platform.stopped h.env = true := by
          rw [← hs.console]
          exact hh
        rw [Rv32i.Hart.next, if_pos hstop]
      · rw [step, if_pos hh]
        exact hs

/-- The memory with an image in front. -/
def loaded (memory : Nat → BitVec 8) (image : List (BitVec 8)) : Nat → BitVec 8 :=
  fun k => (image[k]?).getD (memory k)

/-- The hart in front of the loop. -/
def bootHart (memory : Nat → BitVec 8) (image : List (BitVec 8)) (stdin : List Char) :
    Rv32i.Hart Console where
  pc := 0
  x := fun _ => 0
  zero := rfl
  memory := loaded memory image
  env := ⟨stdin, [], false⟩

theorem loadImage_memory (image : List (BitVec 8)) (count : Nat) (s : Machine) (k : Nat) :
    (loadImage count image s).memory k =
      if count ≤ k then (image[k - count]?).getD (s.memory k) else s.memory k := by
  induction image generalizing count s with
  | nil => simp [loadImage]
  | cons b bs ih =>
      rw [loadImage, ih, poke_memory]
      by_cases hk : k = count
      · subst hk
        simp
      · by_cases hle : count ≤ k
        · have hle' : count + 1 ≤ k := by omega
          rw [if_pos hle', if_pos hle, if_neg hk, show k - count = k - (count + 1) + 1 by omega,
            List.getElem?_cons_succ]
        · rw [if_neg (by omega), if_neg hle, if_neg hk]

theorem loadImage_console (image : List (BitVec 8)) (count : Nat) (s : Machine) :
    (loadImage count image s).console = s.console := by
  induction image generalizing count s with
  | nil => rfl
  | cons b bs ih => exact ih (count + 1) (s.poke count b)

theorem boot_shows (memory : Nat → BitVec 8) (image : List (BitVec 8)) (stdin : List Char) :
    Shows (boot memory image stdin) (bootHart memory image stdin) where
  pc := congrFun (loadImage_reg image 0 _) rPc
  x r := congrFun (loadImage_reg image 0 _) r.castSucc
  memory := by
    funext k
    rw [boot, loadImage_memory, if_pos (Nat.zero_le k)]
    rfl
  console := loadImage_console image 0 _

/-- The state of the VM after `n` iterations. -/
def vmAt (memory : Nat → BitVec 8) (image : List (BitVec 8)) (stdin : List Char) (n : Nat) :
    Machine := iterate stepRun (fun _ => ()) (boot memory image stdin) n

/-- **The VM runs an image as RV32I does for exactly as long as every iteration keeps its
    instruction**: for any image, any input, and whatever was in memory, where nothing behind the
    array is touched and no shift is by 32 or more. -/
theorem run_shows_iff (memory : Nat → BitVec 8) (image : List (BitVec 8)) (stdin : List Char)
    (n : Nat) (hdef : ∀ k < n, Defined (vmAt memory image stdin k))
    (hin : ∀ k ≤ n, Inside (vmAt memory image stdin k)) :
    (∀ k ≤ n, ∃ h, (bootHart memory image stdin).steps platform k = some h ∧
        Shows (vmAt memory image stdin k) h) ↔
      ∀ k < n, (vmAt memory image stdin k).halted = true ∨ Faithful (vmAt memory image stdin k) := by
  induction n with
  | zero =>
      refine iff_of_true (fun k hk => ?_) fun k hk => absurd hk (Nat.not_lt_zero k)
      rw [Nat.le_zero.mp hk]
      exact ⟨_, rfl, boot_shows memory image stdin⟩
  | succ n ih =>
      have hn := ih (fun k hk => hdef k (by omega)) fun k hk => hin k (by omega)
      have hwithin : ∀ k < n + 1, Within (vmAt memory image stdin k) := fun k hk =>
        (step_inside (hin k (by omega))).mp (hin (k + 1) (by omega))
      constructor
      · intro hall k hk
        by_cases hkn : k < n
        · exact hn.mp (fun j hj => hall j (by omega)) k hkn
        · have e : k = n := by omega
          subst e
          obtain ⟨h, hk1, hs⟩ := hall k (by omega)
          obtain ⟨h', hk2, hs'⟩ := hall (k + 1) (Nat.le_refl _)
          rw [Rv32i.Hart.steps, hk1] at hk2
          exact (step_lockstep_iff hs (hdef k hk) (hwithin k hk)).mp ⟨h', hk2, hs'⟩
      · intro hall k hk
        have hlow := hn.mpr fun j hj => hall j (by omega)
        by_cases hkn : k ≤ n
        · exact hlow k hkn
        · have e : k = n + 1 := by omega
          subst e
          obtain ⟨h, hk1, hs⟩ := hlow n (Nat.le_refl n)
          obtain ⟨h', hk2, hs'⟩ := (step_lockstep_iff hs (hdef n (by omega))
            (hwithin n (by omega))).mpr (hall n (by omega))
          refine ⟨h', ?_, hs'⟩
          rw [Rv32i.Hart.steps, hk1]
          exact hk2

/-- ADDI with 5, to register 1. -/
theorem run_shows_addi :
    ∃ h, (bootHart (fun _ => 0) [0x93, 0x00, 0x50, 0x00] []).steps platform 1 = some h ∧
      Shows (vmAt (fun _ => 0) [0x93, 0x00, 0x50, 0x00] [] 1) h := by
  have hword : word (vmAt (fun _ => 0) [0x93, 0x00, 0x50, 0x00] [] 0) = 0x00500093 := by decide
  have hdef : ∀ k < 1, Defined (vmAt (fun _ => 0) [0x93, 0x00, 0x50, 0x00] [] k) := by
    intro k hk op hop
    rw [Nat.lt_one_iff.mp hk, hword] at hop
    exact absurd hop.1 (by decide)
  have hin : ∀ k ≤ 1, Inside (vmAt (fun _ => 0) [0x93, 0x00, 0x50, 0x00] [] k) := by
    decide +kernel
  refine (run_shows_iff (fun _ => 0) [0x93, 0x00, 0x50, 0x00] [] 1 hdef hin).mpr
    (fun k hk => ?_) 1 (Nat.le_refl 1)
  rw [Nat.lt_one_iff.mp hk]
  refine Or.inr ⟨.imm .addi 1 0 5, ?_, Or.inr trivial⟩
  rw [hword]
  exact Rv32i.decode_eq_some_iff.mp (by decide)

end Run

end SysProg.Vm
