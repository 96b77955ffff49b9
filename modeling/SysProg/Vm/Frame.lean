/-
  File:      SysProg/Vm/Frame.lean
  Subject:   WHAT ONE ITERATION OF THE VM LOOP LEAVES ALONE: register 0, the
             registers the word does not name, and the memory.

  `Keeps q s s'` is the frame of everything that is no store: register 0, all
  registers but `q` and the program counter, and the whole memory are as
  before. It is closed under composition and conditionals, so the frame of a
  case of the `switch` follows the text of the case.

  * `execute_keeps` -- the frame of each opcode;
  * `step_frame` -- one iteration, and register 0 along every run.
-/
import SysProg.Vm.Execute

namespace SysProg.Vm

open Lib

/-! ## 1. The frame relation -/

/-- From `s` to `s'` nothing changes but `q`, the program counter and what is no register and no
    memory. -/
structure Keeps (q : Reg) (s s' : Machine) : Prop where
  zero : s'.reg 0 = s.reg 0
  other : ∀ r, r ≠ q → r ≠ rPc → s'.reg r = s.reg r
  memory : s'.memory = s.memory

variable {q : Reg} {s s₁ s₂ : Machine}

theorem Keeps.of_eq (hr : s₁.reg = s.reg) (hm : s₁.memory = s.memory) : Keeps q s s₁ :=
  ⟨congrFun hr 0, fun r _ _ => congrFun hr r, hm⟩

theorem Keeps.refl (q : Reg) (s : Machine) : Keeps q s s := .of_eq rfl rfl

theorem Keeps.trans (h₁ : Keeps q s s₁) (h₂ : Keeps q s₁ s₂) : Keeps q s s₂ where
  zero := h₂.zero.trans h₁.zero
  other r hq hp := (h₂.other r hq hp).trans (h₁.other r hq hp)
  memory := h₂.memory.trans h₁.memory

theorem Keeps.cond {c : Prop} [Decidable c] (h₁ : c → Keeps q s s₁) (h₂ : ¬c → Keeps q s s₂) :
    Keeps q s (if c then s₁ else s₂) := iteInduction h₁ h₂

theorem Keeps.ite {c : Prop} [Decidable c] (h₁ : Keeps q s s₁) (h₂ : Keeps q s s₂) :
    Keeps q s (if c then s₁ else s₂) := .cond (fun _ => h₁) fun _ => h₂

/-- An assignment to the program counter. -/
theorem Keeps.setPc (h : Keeps q s s₁) (value : BitVec 32) : Keeps q s (s₁.setReg rPc value) :=
  h.trans
    { zero := s₁.setReg_reg_of_ne value (by decide)
      other := fun _ _ hp => s₁.setReg_reg_of_ne value hp
      memory := rfl }

theorem Keeps.advance (h : Keeps q s s₁) : Keeps q s s₁.advance := h.setPc _

theorem Keeps.print (h : Keeps q s s₁) (text : List Char) : Keeps q s (s₁.print text) :=
  h.trans (.of_eq rfl rfl)

theorem Keeps.regWrite (h : Keeps q s s₁) (value : BitVec 32) : Keeps q s (regWrite s₁ q value) :=
  h.trans
    { zero := regWrite_reg_zero s₁ q value
      other := fun _ hq _ => regWrite_reg_of_ne s₁ value hq
      memory := regWrite_memory s₁ q value }

theorem keeps_regWrite (q : Reg) (s : Machine) (value : BitVec 32) :
    Keeps q s (regWrite s q value) := (Keeps.refl q s).regWrite value

theorem keeps_memRead (q : Reg) (s : Machine) (address : BitVec 16) (byteLen : Nat) :
    Keeps q s (memRead s address byteLen).2 :=
  .of_eq (memRead_reg s address byteLen) (memRead_memory s address byteLen)

/-! ## 2. The cases of the switch -/

section Cases

variable (inst : BitVec 32) (s : Machine)

theorem keeps_setLess : Keeps (rd inst) s (setLess inst s) := keeps_regWrite _ _ _

theorem keeps_execShiftRight : Keeps (rd inst) s (execShiftRight inst s) :=
  .ite (keeps_regWrite _ _ _) (.ite (keeps_regWrite _ _ _) (.refl _ _))

theorem keeps_execR : Keeps (rd inst) s (execR inst s) := by
  refine Keeps.advance ?_
  refine .ite (.ite (keeps_regWrite _ _ _) (.ite (keeps_regWrite _ _ _) (.refl _ _))) ?_
  refine .ite (keeps_regWrite _ _ _) ?_
  refine .ite (keeps_regWrite _ _ _) ?_
  refine .ite (keeps_regWrite _ _ _) ?_
  refine .ite (keeps_regWrite _ _ _) ?_
  -- the shift and, without a `break`, the comparison behind it
  refine .ite ((keeps_execShiftRight inst s).trans (keeps_setLess inst _)) ?_
  refine .ite (keeps_setLess inst s) ?_
  exact .ite (keeps_regWrite _ _ _) (.refl _ _)

theorem keeps_execI : Keeps (rd inst) s (execI inst s) := by
  refine Keeps.advance ?_
  refine .ite (keeps_regWrite _ _ _) ?_
  refine .ite (keeps_regWrite _ _ _) ?_
  refine .ite (keeps_regWrite _ _ _) ?_
  refine .ite (keeps_regWrite _ _ _) ?_
  refine .ite (keeps_regWrite _ _ _) ?_
  exact .ite (keeps_regWrite _ _ _) (.refl _ _)

theorem keeps_loadBytes (byteLen : Nat) (conv : BitVec 32 → BitVec 32) :
    Keeps (rd inst) s (loadBytes inst s byteLen conv) :=
  (keeps_memRead _ _ _ _).regWrite _

theorem keeps_load : Keeps (rd inst) s (load inst s) := by
  refine .ite (keeps_loadBytes _ _ _ _) ?_
  refine .ite (keeps_loadBytes _ _ _ _) ?_
  refine .ite (keeps_loadBytes _ _ _ _) ?_
  refine .ite (keeps_loadBytes _ _ _ _) ?_
  exact .ite (keeps_loadBytes _ _ _ _) (.refl _ _)

/-- `scanf` writes a register by its address; the guard in front of it keeps it from register
    0. -/
theorem keeps_readInt : Keeps (rd inst) s (readInt inst s) := by
  have hs : Keeps (rd inst) s (scanfInt s).2 := .of_eq (scanfInt_reg s) (scanfInt_memory s)
  refine .cond (fun h => ?_) fun _ => .refl _ s
  dsimp only
  split
  · rename_i value _
    exact hs.trans
      { zero := Machine.setReg_reg_of_ne _ value fun e => h (congrArg Fin.val e.symm)
        other := fun _ hq _ => Machine.setReg_reg_of_ne _ value hq
        memory := rfl }
  · exact hs

theorem keeps_execIMem : Keeps (rd inst) s (execIMem inst s) := by
  have hg : Keeps (rd inst) s (getchar s).2 := .of_eq (getchar_reg s) (getchar_memory s)
  exact (Keeps.ite (hg.regWrite _) (.ite (keeps_readInt inst s) (keeps_load inst s))).advance

theorem keeps_execIJmp : Keeps (rd inst) s (execIJmp inst s) := (keeps_regWrite _ _ _).setPc _

theorem keeps_execU : Keeps (rd inst) s (execU inst s) := (keeps_regWrite _ _ _).advance

theorem keeps_execUj : Keeps (rd inst) s (execUj inst s) := (keeps_regWrite _ _ _).setPc _

theorem keeps_execSb : Keeps rPc s (execSb inst s) := by
  unfold execSb
  split
  · exact (Keeps.refl _ s).setPc _
  · exact (Keeps.refl _ s).advance
  · exact .refl _ s

/-- A store to a routine's address only prints or stops. -/
theorem keeps_execS (h : storeAddress inst s ∈ storeRoutines) : Keeps rPc s (execS inst s) := by
  have hp : ∀ text, Keeps rPc s (s.print text) := fun text => (Keeps.refl rPc s).print text
  refine .cond (fun _ => .of_eq rfl rfl) fun h1 => Keeps.advance ?_
  refine .cond (fun _ => hp _) fun h2 => ?_
  refine .cond (fun _ => hp _) fun h3 => ?_
  refine .cond (fun _ => hp _) fun h4 => ?_
  refine .cond (fun _ => hp _) fun h5 => ?_
  refine .cond (fun _ => hp _) fun h6 => ?_
  refine .cond (fun _ => (keeps_memRead _ _ _ _).print _) fun h7 => absurd h ?_
  simp only [storeRoutines, List.mem_cons, List.not_mem_nil, h1, h2, h3, h4, h5, h6, h7, or_self,
    not_false_eq_true]

/-- Any other store is a store proper. -/
theorem execS_store (h : storeAddress inst s ∉ storeRoutines) :
    execS inst s = (store inst s).advance := by
  simp only [storeRoutines, List.mem_cons, List.not_mem_nil, or_false, not_or] at h
  obtain ⟨h1, h2, h3, h4, h5, h6, h7⟩ := h
  unfold execS
  dsimp only
  rw [if_neg h4, if_neg h1, if_neg h2, if_neg h3, if_neg h5, if_neg h6, if_neg h7]

theorem store_reg : (store inst s).reg = s.reg := by
  have hw : ∀ n, (memWrite s ((storeAddress inst s).setWidth 16) (s.reg (rs2 inst)) n).reg
      = s.reg := fun n => memWrite_reg _ _ _ n
  unfold store
  dsimp only
  split
  · exact hw 1
  · split
    · exact hw 2
    · split
      · exact hw 4
      · rfl

/-- A store writes no register. -/
theorem execS_reg {r : Reg} (h : r ≠ rPc) : (execS inst s).reg r = s.reg r := by
  by_cases hv : storeAddress inst s ∈ storeRoutines
  · exact (keeps_execS inst s hv).other r h h
  · rw [execS_store inst s hv, ← store_reg inst s]
    exact Machine.setReg_reg_of_ne _ _ h

/-- **The frame of a word that is no store**: its `rd` if its case has one, else only the program
    counter. -/
theorem execute_keeps (h : opcode inst ≠ some .opS) :
    Keeps (if (opcode inst).any Opcode.hasRd then rd inst else rPc) s (execute inst s) := by
  unfold execute
  cases ho : opcode inst with
  | none => exact (Keeps.refl _ s).print _
  | some o =>
      cases o with
      | opR => exact keeps_execR inst s
      | opI => exact keeps_execI inst s
      | opIMem => exact keeps_execIMem inst s
      | opIJmp => exact keeps_execIJmp inst s
      | opU => exact keeps_execU inst s
      | opS => exact absurd ho h
      | opSb => exact keeps_execSb inst s
      | opUj => exact keeps_execUj inst s

theorem execute_store (h : opcode inst = some .opS) : execute inst s = execS inst s := by
  rw [execute, h]

end Cases

/-! ## 3. One iteration and the run -/

theorem execute_reg (inst : BitVec 32) (s : Machine) {r : Reg} (hp : r ≠ rPc)
    (hr : (opcode inst).any Opcode.hasRd = true → r ≠ rd inst) :
    (execute inst s).reg r = s.reg r := by
  by_cases ho : opcode inst = some .opS
  · rw [execute_store inst s ho]
    exact execS_reg inst s hp
  · refine (execute_keeps inst s ho).other r ?_ hp
    split
    · rename_i h
      exact hr h
    · exact hp

theorem execute_zero (inst : BitVec 32) (s : Machine) : (execute inst s).reg 0 = s.reg 0 := by
  by_cases ho : opcode inst = some .opS
  · rw [execute_store inst s ho]
    exact execS_reg inst s (by decide)
  · exact (execute_keeps inst s ho).zero

theorem fetch_reg (s : Machine) : (fetch s).2.reg = s.reg := memRead_reg _ _ _

theorem fetch_pc (s : Machine) : (fetch s).2.pc = s.pc := congrFun (fetch_reg s) rPc

theorem fetch_memory (s : Machine) : (fetch s).2.memory = s.memory := memRead_memory _ _ _

theorem step_reg (s : Machine) {r : Reg} (hp : r ≠ rPc)
    (hr : (opcode (word s)).any Opcode.hasRd = true → r ≠ rd (word s)) :
    (step s).reg r = s.reg r := by
  unfold step
  split
  · rfl
  · rw [execute_reg _ _ hp hr, fetch_reg]

theorem step_zero (s : Machine) : (step s).reg 0 = s.reg 0 := by
  unfold step
  split
  · rfl
  · rw [execute_zero, fetch_reg]

/-- The memory changes only through a store whose address is no routine's. -/
theorem step_memory (s : Machine) (h : (step s).memory ≠ s.memory) :
    opcode (word s) = some .opS ∧ storeAddress (word s) s ∉ storeRoutines := by
  unfold step at h
  split at h
  · exact absurd rfl h
  · by_cases ho : opcode (word s) = some .opS
    · refine ⟨ho, fun hv => h ?_⟩
      have hv' : storeAddress (word s) (fetch s).2 ∈ storeRoutines := by
        unfold storeAddress
        rw [fetch_reg]
        exact hv
      rw [execute_store _ _ ho, (keeps_execS _ _ hv').memory, fetch_memory]
    · exact absurd ((execute_keeps _ _ ho).memory.trans (fetch_memory s)) h

theorem loadImage_reg (image : List (BitVec 8)) (count : Nat) (s : Machine) :
    (loadImage count image s).reg = s.reg := by
  induction image generalizing count s with
  | nil => rfl
  | cons b bs ih => exact (ih (count + 1) _).trans (s.poke_reg count b)

/-- **The frame of one iteration, and register 0 along every run.** -/
theorem step_frame :
    (∀ s : Machine, s.reg 0 = 0 →
      (step s).reg 0 = 0 ∧
      (∀ r, r ≠ rPc → ((opcode (word s)).any Opcode.hasRd = true → r ≠ rd (word s)) →
        (step s).reg r = s.reg r) ∧
      ((step s).memory ≠ s.memory →
        opcode (word s) = some .opS ∧ storeAddress (word s) s ∉ storeRoutines)) ∧
    ∀ (memory : Nat → BitVec 8) (image : List (BitVec 8)) (stdin : List Char) (is : List Unit),
      Always stepRun (fun s => s.reg 0 = 0) (boot memory image stdin) is := by
  refine ⟨fun s h0 => ⟨(step_zero s).trans h0, fun r hp hr => step_reg s hp hr, step_memory s⟩, ?_⟩
  intro memory image stdin is
  have h0 : (boot memory image stdin).reg 0 = 0 := congrFun (loadImage_reg image 0 _) 0
  have hstep : ∀ (s : Machine) (i : Unit), s.reg 0 = 0 → True → (stepRun s i).reg 0 = 0 :=
    fun s _ h _ => (step_zero s).trans h
  exact always_of_allSteps hstep is h0 (allSteps_of_forall (fun _ _ => trivial) is)

/-- `ADDI x0, x0, 5`, executed from zeroed memory. -/
theorem step_frame_addi_zero :
    (step (boot (fun _ => 0) [0x13, 0x00, 0x50, 0x00] [])).reg 0 = 0 :=
  (step_frame.1 _ rfl).1

end SysProg.Vm
