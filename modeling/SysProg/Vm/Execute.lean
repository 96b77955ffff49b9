/-
  File:      SysProg/Vm/Execute.lean
  Subject:   The fetch-execute loop of vm_riskxvii.c: decoding, one function
             per opcode, one iteration, the loaded image.

  `main` is one `switch` over the opcode of the fetched word; each case is a
  function here. What the cases do in the source they do here:

  * `SRL_FUNC3` has no `break` behind its inner `switch` and runs on into
    `SLT_FUNC3`, which reads the registers again (`execR`);
  * `BLT` and `BGE` compare the registers as they are stored, unsigned, and
    `BGE` and `BGEU` with `>` (`branchTaken`);
  * `bit10to5` of a branch is kept in eight bits (`branchOffset`);
  * an opcode without a case is reported and the program counter stays.

  A shift by 32 or more is undefined in C; as on the machines it is compiled
  for, the amount counts modulo 32.
-/
import SysProg.Vm.Machine
import SysProg.Lib.Run

namespace SysProg.Vm

open Lib

/-! ## 1. Decoding -/

/-- `enum opcode`. -/
inductive Opcode where
  | opR
  | opI
  | opIMem
  | opIJmp
  | opU
  | opS
  | opSb
  | opUj
  deriving DecidableEq, Repr

namespace Opcode

def bits : Opcode → BitVec 7
  | opR => 0b0110011
  | opI => 0b0010011
  | opIMem => 0b0000011
  | opIJmp => 0b1100111
  | opU => 0b0110111
  | opS => 0b0100011
  | opSb => 0b1100011
  | opUj => 0b1101111

/-- The opcodes in the order of the `switch`. -/
def all : List Opcode := [opR, opI, opIMem, opIJmp, opU, opS, opSb, opUj]

/-- The opcodes whose case has a field `rd`. -/
def hasRd : Opcode → Bool
  | opS => false
  | opSb => false
  | _ => true

end Opcode

/-- The case of the `switch` a word is sent to. -/
def opcode (inst : BitVec 32) : Option Opcode :=
  Opcode.all.find? fun o => o.bits = inst.extractLsb' 0 7

/-- Five bits of the word, as an index into `reg`. -/
def regField (inst : BitVec 32) (start : Nat) : Reg :=
  ⟨(inst.extractLsb' start 5).toNat, Nat.lt_trans (inst.extractLsb' start 5).isLt (by decide)⟩

def rd (inst : BitVec 32) : Reg := regField inst 7

def rs1 (inst : BitVec 32) : Reg := regField inst 15

def rs2 (inst : BitVec 32) : Reg := regField inst 20

def func3 (inst : BitVec 32) : BitVec 3 := inst.extractLsb' 12 3

def func7 (inst : BitVec 32) : BitVec 7 := inst.extractLsb' 25 7

/-- `sign_extend(inst >> 20, 12)`. -/
def immI (inst : BitVec 32) : BitVec 32 := signExtend (inst >>> 20) 12

/-- The immediate of a store: `imm7` above `imm5`. -/
def immS (inst : BitVec 32) : BitVec 32 :=
  let imm5 := (inst >>> 7) &&& 31
  let imm7 := inst >>> 25
  signExtend ((imm7 <<< 5) ||| imm5) 12

/-- `sign_extend(imm << 1, 13)` of a branch. -/
def branchOffset (inst : BitVec 32) : BitVec 32 :=
  let imm5 : BitVec 8 := ((inst >>> 7) &&& 31).setWidth 8
  let imm7 : BitVec 8 := (inst >>> 25).setWidth 8
  let bit11 : BitVec 16 := (imm5.setWidth 16 &&& 1) <<< 10
  let bit4to1 : BitVec 8 := imm5 >>> 1
  let bit10to5 : BitVec 8 := ((imm7.setWidth 32 &&& 63) <<< 4).setWidth 8
  let bit12 : BitVec 16 := (imm7.setWidth 16 >>> 6) <<< 11
  let imm : BitVec 16 := bit12 ||| bit11 ||| bit10to5.signExtend 16 ||| bit4to1.signExtend 16
  signExtend (imm.signExtend 32 <<< 1) 13

/-- `sign_extend(imm << 1, 19)` of a jump. -/
def jumpOffset (inst : BitVec 32) : BitVec 32 :=
  let scrambled := inst >>> 12
  let byte1 := ((scrambled >>> 19) &&& 1) <<< 19
  let byte2 := (scrambled >>> 9) &&& 1023
  let byte3 := ((scrambled >>> 8) &&& 1) <<< 10
  let byte4 := (scrambled &&& 255) <<< 11
  signExtend ((byte1 ||| byte2 ||| byte3 ||| byte4) <<< 1) 19

/-! ## 2. Function codes and virtual routines -/

def addFunc7 : BitVec 7 := 0b0000000
def subFunc7 : BitVec 7 := 0b0100000
def srlFunc7 : BitVec 7 := 0b0000000
def sraFunc7 : BitVec 7 := 0b0100000

def addFunc3 : BitVec 3 := 0b000
def xorFunc3 : BitVec 3 := 0b100
def orFunc3 : BitVec 3 := 0b110
def andFunc3 : BitVec 3 := 0b111
def sllFunc3 : BitVec 3 := 0b001
def srlFunc3 : BitVec 3 := 0b101
def sltFunc3 : BitVec 3 := 0b010
def sltuFunc3 : BitVec 3 := 0b011
def addiFunc3 : BitVec 3 := 0b000
def xoriFunc3 : BitVec 3 := 0b100
def oriFunc3 : BitVec 3 := 0b110
def andiFunc3 : BitVec 3 := 0b111
def sltiFunc3 : BitVec 3 := 0b010
def sltiuFunc3 : BitVec 3 := 0b011
def lbFunc3 : BitVec 3 := 0b000
def lhFunc3 : BitVec 3 := 0b001
def lwFunc3 : BitVec 3 := 0b010
def lbuFunc3 : BitVec 3 := 0b100
def lhuFunc3 : BitVec 3 := 0b101
def sbFunc3 : BitVec 3 := 0b000
def shFunc3 : BitVec 3 := 0b001
def swFunc3 : BitVec 3 := 0b010
def beqFunc3 : BitVec 3 := 0b000
def bneFunc3 : BitVec 3 := 0b001
def bltFunc3 : BitVec 3 := 0b100
def bltuFunc3 : BitVec 3 := 0b110
def bgeFunc3 : BitVec 3 := 0b101
def bgeuFunc3 : BitVec 3 := 0b111

def virWChar : BitVec 32 := 0x0800
def virWInt : BitVec 32 := 0x0804
def virWUint : BitVec 32 := 0x0808
def virHalt : BitVec 32 := 0x080C
def virRChar : BitVec 32 := 0x0812
def virRInt : BitVec 32 := 0x0816
def virDumpPc : BitVec 32 := 0x0820
def virDumpReg : BitVec 32 := 0x0824
def virDumpMem : BitVec 32 := 0x0828

/-- The routines a load is checked for. -/
def loadRoutines : List (BitVec 32) := [virRChar, virRInt]

/-- The routines a store is checked for. -/
def storeRoutines : List (BitVec 32) :=
  [virWChar, virWInt, virWUint, virHalt, virDumpPc, virDumpReg, virDumpMem]

/-! ## 3. The cases of the switch -/

section Cases

variable (inst : BitVec 32) (s : Machine)

def shiftLeft (x amount : BitVec 32) : BitVec 32 := x <<< (amount.toNat % 32)

def shiftRight (x amount : BitVec 32) : BitVec 32 := x >>> (amount.toNat % 32)

/-- The case `SLT_FUNC3`. -/
def setLess : Machine :=
  regWrite s (rd inst) (if (s.reg (rs1 inst)).slt (s.reg (rs2 inst)) then 1 else 0)

/-- The inner `switch` of `SRL_FUNC3`. -/
def execShiftRight : Machine :=
  let a := s.reg (rs1 inst)
  let numbits := s.reg (rs2 inst)
  if func7 inst = srlFunc7 then regWrite s (rd inst) (shiftRight a numbits)
  else if func7 inst = sraFunc7 then regWrite s (rd inst) (shiftRight a numbits ||| (32 - numbits))
  else s

def execR : Machine :=
  let a := s.reg (rs1 inst)
  let b := s.reg (rs2 inst)
  let s₁ :=
    if func3 inst = addFunc3 then
      if func7 inst = addFunc7 then regWrite s (rd inst) (a + b)
      else if func7 inst = subFunc7 then regWrite s (rd inst) (a - b)
      else s
    else if func3 inst = xorFunc3 then regWrite s (rd inst) (a ^^^ b)
    else if func3 inst = orFunc3 then regWrite s (rd inst) (a ||| b)
    else if func3 inst = andFunc3 then regWrite s (rd inst) (a &&& b)
    else if func3 inst = sllFunc3 then regWrite s (rd inst) (shiftLeft a b)
    -- no `break` here: the comparison reads the registers after the shift
    else if func3 inst = srlFunc3 then setLess inst (execShiftRight inst s)
    else if func3 inst = sltFunc3 then setLess inst s
    else if func3 inst = sltuFunc3 then regWrite s (rd inst) (if a < b then 1 else 0)
    else s
  s₁.advance

def execI : Machine :=
  let a := s.reg (rs1 inst)
  let imm := immI inst
  let s₁ :=
    if func3 inst = addiFunc3 then regWrite s (rd inst) (a + imm)
    else if func3 inst = xoriFunc3 then regWrite s (rd inst) (a ^^^ imm)
    else if func3 inst = oriFunc3 then regWrite s (rd inst) (a ||| imm)
    else if func3 inst = andiFunc3 then regWrite s (rd inst) (a &&& imm)
    -- the register is unsigned, and the immediate is converted to it
    else if func3 inst = sltiFunc3 then regWrite s (rd inst) (if a < imm then 1 else 0)
    else if func3 inst = sltiuFunc3 then
      regWrite s (rd inst) (if a < (imm.setWidth 16).setWidth 32 then 1 else 0)
    else s
  s₁.advance

/-- `reg[rs1] + imm` of a load. -/
def loadAddress : BitVec 32 := s.reg (rs1 inst) + immI inst

/-- A load of `byteLen` bytes, converted by `conv`. -/
def loadBytes (byteLen : Nat) (conv : BitVec 32 → BitVec 32) : Machine :=
  let r := memRead s ((loadAddress inst s).setWidth 16) byteLen
  regWrite r.2 (rd inst) (conv r.1)

/-- The loads proper: the `default` case of `OP_I_MEM`. -/
def load : Machine :=
  if func3 inst = lbFunc3 then loadBytes inst s 1 (signExtend · 8)
  else if func3 inst = lhFunc3 then loadBytes inst s 2 (signExtend · 16)
  else if func3 inst = lwFunc3 then loadBytes inst s 4 id
  else if func3 inst = lbuFunc3 then loadBytes inst s 1 fun x => (x.setWidth 8).setWidth 32
  else if func3 inst = lhuFunc3 then loadBytes inst s 2 fun x => (x.setWidth 16).setWidth 32
  else s

/-- The case `VIR_R_INT`. -/
def readInt : Machine :=
  if (rd inst).val ≠ 0 then
    let r := scanfInt s
    match r.1 with
    | some value => r.2.setReg (rd inst) value
    | none => r.2
  else s

def execIMem : Machine :=
  let s₁ :=
    if loadAddress inst s = virRChar then
      let r := getchar s
      regWrite r.2 (rd inst) r.1
    else if loadAddress inst s = virRInt then readInt inst s
    else load inst s
  s₁.advance

/-- `reg[rs1]` is read after `reg[rd]` is written. -/
def execIJmp : Machine :=
  let s₁ := regWrite s (rd inst) (s.pc + 4)
  s₁.setReg rPc (s₁.reg (rs1 inst) + immI inst)

def execU : Machine :=
  (regWrite s (rd inst) (signExtend (inst >>> 12) 12 <<< 12)).advance

/-- `reg[rs1] + imm` of a store. -/
def storeAddress : BitVec 32 := s.reg (rs1 inst) + immS inst

/-- The lines of `VIR_DUMP_REG`. -/
def registerLines : List Char :=
  "PC = ".toList ++ formatHex s.pc ++ "\n".toList
    ++ (List.finRange 32).flatMap fun i =>
        "R[".toList ++ itoa i.val ++ "] = ".toList ++ formatHex (s.reg i.castSucc) ++ "\n".toList

/-- The stores proper: the `default` case of `OP_S`. -/
def store : Machine :=
  let address := (storeAddress inst s).setWidth 16
  let value := s.reg (rs2 inst)
  if func3 inst = sbFunc3 then memWrite s address value 1
  else if func3 inst = shFunc3 then memWrite s address value 2
  else if func3 inst = swFunc3 then memWrite s address value 4
  else s

def execS : Machine :=
  let address := storeAddress inst s
  let value := s.reg (rs2 inst)
  if address = virHalt then { s.print "CPU Halt Requested\n".toList with halted := true }
  else
    let s₁ :=
      if address = virWChar then s.print (formatChar value)
      else if address = virWInt then s.print (formatInt value)
      else if address = virWUint then s.print (formatHex value)
      else if address = virDumpPc then s.print (formatHex s.pc)
      else if address = virDumpReg then s.print (registerLines s)
      else if address = virDumpMem then
        let r := memRead s (value.setWidth 16) 1
        r.2.print (formatHex r.1 ++ "\n".toList)
      else store inst s
    s₁.advance

/-- Whether a branch is taken; `none` if `func3` has no case. -/
def branchTaken (f : BitVec 3) (a b : BitVec 32) : Option Bool :=
  if f = beqFunc3 then some (a = b)
  else if f = bneFunc3 then some (a ≠ b)
  else if f = bltFunc3 then some (a < b)
  else if f = bltuFunc3 then some (a < b)
  else if f = bgeFunc3 then some (b < a)
  else if f = bgeuFunc3 then some (b < a)
  else none

def execSb : Machine :=
  match branchTaken (func3 inst) (s.reg (rs1 inst)) (s.reg (rs2 inst)) with
  | some true => s.setReg rPc (s.pc + branchOffset inst)
  | some false => s.advance
  | none => s

def execUj : Machine :=
  let s₁ := regWrite s (rd inst) (s.pc + 4)
  s₁.setReg rPc (s₁.pc + jumpOffset inst)

/-- The `switch` over the opcode. -/
def execute : Machine :=
  match opcode inst with
  | some .opR => execR inst s
  | some .opI => execI inst s
  | some .opIMem => execIMem inst s
  | some .opIJmp => execIJmp inst s
  | some .opU => execU inst s
  | some .opS => execS inst s
  | some .opSb => execSb inst s
  | some .opUj => execUj inst s
  | none => s.print ("Instruction Not Implemented: ".toList ++ formatHex inst ++ "\n".toList)

end Cases

/-! ## 4. The loop -/

/-- `inst = mem_read(memory, reg[R_PC], 4)`. -/
def fetch (s : Machine) : BitVec 32 × Machine := memRead s (s.pc.setWidth 16) 4

/-- The word an iteration executes. -/
def word (s : Machine) : BitVec 32 := (fetch s).1

/-- One iteration of the loop; nothing once `main` has returned. -/
def step (s : Machine) : Machine :=
  if s.halted then s else execute (word s) (fetch s).2

/-- The loop that reads the image, from byte `count` on. -/
def loadImage : Nat → List (BitVec 8) → Machine → Machine
  | _, [], s => s
  | count, b :: bs, s => loadImage (count + 1) bs (s.poke count b)

/-- The state in front of the loop: `memory` was not initialised. -/
def boot (memory : Nat → BitVec 8) (image : List (BitVec 8)) (stdin : List Char) : Machine :=
  loadImage 0 image
    { memory := memory, reg := fun _ => 0, stdin := stdin, stdout := [], halted := false,
      touched := [] }

/-- The loop as a machine without inputs of its own. -/
def stepRun (s : Machine) (_ : Unit) : Machine := step s

end SysProg.Vm
