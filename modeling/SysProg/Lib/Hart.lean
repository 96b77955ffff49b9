/-
  File:      SysProg/Lib/Hart.lean
  Subject:   A MACHINE FOR RV32I: decoded instructions, and what each of them
             does to a hart on a platform.

  The platform says where the byte of an address is in memory, and which
  addresses are devices. A load from a device may deliver a value, a store to
  one may act on its environment and stop the hart; every other load and store
  goes to memory, each byte to where the platform has its address. That
  register 0 is 0 is part of the type of a hart.

  * `Instr`, `Decodes`, `decode` -- instructions, the encodings they rest on,
    and the decoder (`decode_eq_some_iff`);
  * `BOp.taken`, `wordAt`, `storeBytes` -- branches and memory;
  * `Platform.bytesAt`, `Platform.storeAt` -- memory by addresses; bytes that
    stand in a row are read and written like those of an array (`wordAt_bytesAt`,
    `storeAt_eq`);
  * `Hart.exec`, `Hart.next`, `Hart.steps` -- an instruction, a step, some
    steps.
-/
import SysProg.Lib.Rv32i
import Mathlib.Logic.Function.Basic

namespace SysProg.Lib.Rv32i

/-! ## 1. Instructions -/

/-- An instruction with its operands; offsets and immediates are extended to 32 bits. -/
inductive Instr where
  | reg (op : ROp) (rd rs1 rs2 : Fin 32)
  | imm (op : IOp) (rd rs1 : Fin 32) (value : BitVec 32)
  | load (op : LoadOp) (rd rs1 : Fin 32) (offset : BitVec 32)
  | store (n : Width) (rs1 rs2 : Fin 32) (offset : BitVec 32)
  | branch (op : BOp) (rs1 rs2 : Fin 32) (offset : BitVec 32)
  | jal (rd : Fin 32) (offset : BitVec 32)
  | jalr (rd rs1 : Fin 32) (offset : BitVec 32)
  | lui (rd : Fin 32) (value : BitVec 32)
  deriving DecidableEq, Repr

/-- Five bits of a word, as the number of a register. -/
def field (w : BitVec 32) (start : Nat) : Fin 32 := (w.extractLsb' start 5).toFin

/-- The word encodes the instruction. -/
inductive Decodes (w : BitVec 32) : Instr → Prop where
  | reg (op : ROp) (h : op.EncodedBy w) :
      Decodes w (.reg op (field w 7) (field w 15) (field w 20))
  | imm (op : IOp) (h : op.EncodedBy w) :
      Decodes w (.imm op (field w 7) (field w 15) (immI w))
  | load (op : LoadOp) (h : op.EncodedBy w) :
      Decodes w (.load op (field w 7) (field w 15) ((offsetI w).signExtend 32))
  | store (n : Width) (h : n.StoredBy w) :
      Decodes w (.store n (field w 15) (field w 20) ((offsetS w).signExtend 32))
  | branch (op : BOp) (h : op.EncodedBy w) :
      Decodes w (.branch op (field w 15) (field w 20) (immB w))
  | jal (h : IsJal w) : Decodes w (.jal (field w 7) (immJ w))
  | jalr (h : IsJalr w) : Decodes w (.jalr (field w 7) (field w 15) (immI w))
  | lui (h : IsLui w) : Decodes w (.lui (field w 7) (immU w))

def ROp.all : List ROp := [.add, .sub, .xor, .or, .and, .sll, .srl, .sra, .slt, .sltu]

def IOp.all : List IOp := [.addi, .xori, .ori, .andi, .slti, .sltiu]

def LoadOp.all : List LoadOp := [.lb, .lh, .lw, .lbu, .lhu]

def Width.all : List Width := [.byte, .half, .word]

def BOp.all : List BOp := [.beq, .bne, .blt, .bge, .bltu, .bgeu]

/-- The instruction of a word, if it is one: the opcode, then the operation. -/
def decode (w : BitVec 32) : Option Instr :=
  if w.extractLsb' 0 7 = 0b0110011 then
    (ROp.all.find? fun op => op.EncodedBy w).map fun op =>
      .reg op (field w 7) (field w 15) (field w 20)
  else if w.extractLsb' 0 7 = 0b0010011 then
    (IOp.all.find? fun op => op.EncodedBy w).map fun op =>
      .imm op (field w 7) (field w 15) (immI w)
  else if w.extractLsb' 0 7 = 0b0000011 then
    (LoadOp.all.find? fun op => op.EncodedBy w).map fun op =>
      .load op (field w 7) (field w 15) ((offsetI w).signExtend 32)
  else if w.extractLsb' 0 7 = 0b0100011 then
    (Width.all.find? fun n => n.StoredBy w).map fun n =>
      .store n (field w 15) (field w 20) ((offsetS w).signExtend 32)
  else if w.extractLsb' 0 7 = 0b1100011 then
    (BOp.all.find? fun op => op.EncodedBy w).map fun op =>
      .branch op (field w 15) (field w 20) (immB w)
  else if IsJal w then some (.jal (field w 7) (immJ w))
  else if IsJalr w then some (.jalr (field w 7) (field w 15) (immI w))
  else if IsLui w then some (.lui (field w 7) (immU w))
  else none

section Decode

variable {w : BitVec 32}

/-- An operation is found by its code, if it is the first of that code. -/
theorem find?_code {α β : Type*} [DecidableEq β] {f : α → β} {p : α → Prop} [DecidablePred p]
    {l : List α} {a : α} (hp : ∀ b, p b ↔ f a = f b)
    (hl : (l.find? fun b => f a = f b) = some a) : (l.find? fun b => p b) = some a := by
  rw [← hl]
  congr 1
  funext b
  exact decide_eq_decide.mpr (hp b)

theorem ROp.find_eq {op : ROp} (h : op.EncodedBy w) :
    (ROp.all.find? fun op => op.EncodedBy w) = some op := by
  refine find?_code (f := fun op : ROp => (op.funct3, op.funct7)) (fun b => ?_) (by cases op <;> rfl)
  rw [EncodedBy, h.2.1, h.2.2, and_iff_right h.1, Prod.mk.injEq]

theorem IOp.find_eq {op : IOp} (h : op.EncodedBy w) :
    (IOp.all.find? fun op => op.EncodedBy w) = some op := by
  refine find?_code (f := IOp.funct3) (fun b => ?_) (by cases op <;> rfl)
  rw [EncodedBy, h.2, and_iff_right h.1]

theorem LoadOp.find_eq {op : LoadOp} (h : op.EncodedBy w) :
    (LoadOp.all.find? fun op => op.EncodedBy w) = some op := by
  refine find?_code (f := LoadOp.funct3) (fun b => ?_) (by cases op <;> rfl)
  rw [EncodedBy, h.2, and_iff_right h.1]

theorem Width.find_eq {n : Width} (h : n.StoredBy w) :
    (Width.all.find? fun n => n.StoredBy w) = some n := by
  refine find?_code (f := Width.funct3) (fun b => ?_) (by cases n <;> rfl)
  rw [StoredBy, h.2, and_iff_right h.1]

theorem BOp.find_eq {op : BOp} (h : op.EncodedBy w) :
    (BOp.all.find? fun op => op.EncodedBy w) = some op := by
  refine find?_code (f := BOp.funct3) (fun b => ?_) (by cases op <;> rfl)
  rw [EncodedBy, h.2, and_iff_right h.1]

theorem decode_of_decodes {i : Instr} (h : Decodes w i) : decode w = some i := by
  unfold decode
  cases h with
  | reg op h => rw [if_pos h.1, ROp.find_eq h, Option.map_some]
  | imm op h =>
      rw [h.1, if_neg (by decide), if_pos rfl, IOp.find_eq h, Option.map_some]
  | load op h =>
      rw [h.1, if_neg (by decide), if_neg (by decide), if_pos rfl, LoadOp.find_eq h,
        Option.map_some]
  | store n h =>
      rw [h.1, if_neg (by decide), if_neg (by decide), if_neg (by decide), if_pos rfl,
        Width.find_eq h, Option.map_some]
  | branch op h =>
      rw [h.1, if_neg (by decide), if_neg (by decide), if_neg (by decide), if_neg (by decide),
        if_pos rfl, BOp.find_eq h, Option.map_some]
  | jal h =>
      rw [if_pos h, show w.extractLsb' 0 7 = 0b1101111 from h]
      rfl
  | jalr h =>
      have hj : ¬ IsJal w := by
        rw [IsJal, h.1]
        decide
      rw [if_neg hj, if_pos h, h.1]
      rfl
  | lui h =>
      have h0 : w.extractLsb' 0 7 = 0b0110111 := h
      have hj : ¬ IsJal w := by
        rw [IsJal, h0]
        decide
      have hr : ¬ IsJalr w := by
        intro hr
        rw [IsJalr, h0] at hr
        exact absurd hr.1 (by decide)
      rw [if_neg hj, if_neg hr, if_pos h, h0]
      rfl

theorem decodes_of_decode {i : Instr} (h : decode w = some i) : Decodes w i := by
  unfold decode at h
  split at h
  · obtain ⟨op, hop, rfl⟩ := Option.map_eq_some_iff.mp h
    exact .reg op (by simpa using List.find?_some hop)
  split at h
  · obtain ⟨op, hop, rfl⟩ := Option.map_eq_some_iff.mp h
    exact .imm op (by simpa using List.find?_some hop)
  split at h
  · obtain ⟨op, hop, rfl⟩ := Option.map_eq_some_iff.mp h
    exact .load op (by simpa using List.find?_some hop)
  split at h
  · obtain ⟨n, hn, rfl⟩ := Option.map_eq_some_iff.mp h
    exact .store n (by simpa using List.find?_some hn)
  split at h
  · obtain ⟨op, hop, rfl⟩ := Option.map_eq_some_iff.mp h
    exact .branch op (by simpa using List.find?_some hop)
  split at h
  · rename_i hj
    cases h
    exact .jal hj
  split at h
  · rename_i hr
    cases h
    exact .jalr hr
  split at h
  · rename_i hl
    cases h
    exact .lui hl
  · cases h

/-- **The decoder finds exactly what the word encodes.** -/
theorem decode_eq_some_iff {i : Instr} : decode w = some i ↔ Decodes w i :=
  ⟨decodes_of_decode, decode_of_decodes⟩

end Decode

/-! ## 2. Branches and memory -/

/-- Whether the branch is to be taken. -/
def BOp.taken (op : BOp) (a b : BitVec 32) : Bool :=
  match op with
  | beq => decide (a = b)
  | bne => decide (a ≠ b)
  | blt => decide (a.toInt < b.toInt)
  | bge => decide (b.toInt ≤ a.toInt)
  | bltu => decide (a.toNat < b.toNat)
  | bgeu => decide (b.toNat ≤ a.toNat)

/-- The four bytes from index `a` on, the lowest first. -/
def wordAt (m : Nat → BitVec 8) (a : Nat) : BitVec 32 := m (a + 3) ++ m (a + 2) ++ m (a + 1) ++ m a

theorem byteOf_wordAt (m : Nat → BitVec 8) (a : Nat) {i : Nat} (hi : i < 4) :
    byteOf (wordAt m a) i = m (a + i) := by
  apply BitVec.eq_of_getLsbD_eq
  intro j hj
  unfold byteOf wordAt
  rw [BitVec.getLsbD_extractLsb', decide_eq_true hj, Bool.true_and, BitVec.getLsbD_append,
    BitVec.getLsbD_append, BitVec.getLsbD_append]
  match i, hi with
  | 0, _ => simp [hj]
  | 1, _ => simp [show ¬ 8 * 1 + j < 8 by omega, show 8 * 1 + j - 8 = j by omega, hj]
  | 2, _ =>
      simp [show ¬ 8 * 2 + j < 8 by omega, show ¬ 8 * 2 + j - 8 < 8 by omega,
        show 8 * 2 + j - 8 - 8 = j by omega, hj]
  | 3, _ =>
      simp [show ¬ 8 * 3 + j < 8 by omega, show ¬ 8 * 3 + j - 8 < 8 by omega,
        show ¬ 8 * 3 + j - 8 - 8 < 8 by omega, show 8 * 3 + j - 8 - 8 - 8 = j by omega]

/-- The low part of a word is its low bytes. -/
theorem setWidth_ext {v w : BitVec 32} {n : Nat} (h : ∀ i < n, byteOf v i = byteOf w i) :
    v.setWidth (8 * n) = w.setWidth (8 * n) := by
  apply BitVec.eq_of_getLsbD_eq
  intro j hj
  have hbyte := congrArg (fun b => b.getLsbD (j % 8)) (h (j / 8) (by omega))
  simp only [byteOf, BitVec.getLsbD_extractLsb', decide_eq_true (show j % 8 < 8 by omega),
    Bool.true_and] at hbyte
  rw [Nat.div_add_mod] at hbyte
  rw [BitVec.getLsbD_setWidth, BitVec.getLsbD_setWidth, hbyte]

/-- A word is its four bytes. -/
theorem word_ext {v w : BitVec 32} (h : ∀ i < 4, byteOf v i = byteOf w i) : v = w := by
  have hall : v.setWidth 32 = w.setWidth 32 := setWidth_ext h
  rwa [BitVec.setWidth_eq, BitVec.setWidth_eq] at hall

/-- A load depends on the bytes it names. -/
theorem LoadOp.extend_congr {op : LoadOp} {v w : BitVec 32}
    (h : ∀ i < op.width.bytes, byteOf v i = byteOf w i) : op.extend v = op.extend w := by
  have hlow := setWidth_ext h
  cases op with
  | lb => exact congrArg (BitVec.signExtend 32) hlow
  | lh => exact congrArg (BitVec.signExtend 32) hlow
  | lw => exact word_ext h
  | lbu => exact congrArg (BitVec.setWidth 32) hlow
  | lhu => exact congrArg (BitVec.setWidth 32) hlow

/-- The word at an index, from its bytes. -/
theorem wordAt_eq {m : Nat → BitVec 8} {a : Nat} {w : BitVec 32}
    (h : ∀ i < 4, m (a + i) = byteOf w i) : wordAt m a = w :=
  word_ext fun i hi => (byteOf_wordAt m a hi).trans (h i hi)

/-- The memory after a store. -/
def storeBytes (n : Width) (a : Nat) (v : BitVec 32) (m : Nat → BitVec 8) : Nat → BitVec 8 :=
  fun k => if a ≤ k ∧ k < a + n.bytes then byteOf v (k - a) else m k

/-- A store changes exactly the bytes it names if and only if it leaves that memory. -/
theorem eq_storeBytes_iff {n : Width} {a : Nat} {v : BitVec 32} {m m' : Nat → BitVec 8} :
    m' = storeBytes n a v m ↔ Stores n a v m m' := by
  constructor
  · intro h
    subst h
    refine ⟨fun i hi => ?_, fun k hk => ?_⟩
    · rw [storeBytes, if_pos ⟨by omega, by omega⟩, Nat.add_sub_cancel_left]
    · rw [storeBytes, if_neg (by omega)]
  · intro h
    funext k
    by_cases hk : a ≤ k ∧ k < a + n.bytes
    · rw [storeBytes, if_pos hk, ← h.named (k - a) (by omega), Nat.add_sub_cancel' hk.1]
    · rw [storeBytes, if_neg hk, h.others k (by omega)]

/-- A word that has been stored is there. -/
theorem wordAt_storeBytes (m : Nat → BitVec 8) (a : Nat) (v : BitVec 32) :
    wordAt (storeBytes .word a v m) a = v := by
  refine wordAt_eq fun i hi => ?_
  rw [storeBytes, if_pos ⟨by omega, Nat.add_lt_add_left hi a⟩, Nat.add_sub_cancel_left]

/-- The words next to it stay. -/
theorem wordAt_storeBytes_of_apart (m : Nat → BitVec 8) {a b : Nat} (v : BitVec 32)
    (h : a + 4 ≤ b ∨ b + 4 ≤ a) : wordAt (storeBytes .word a v m) b = wordAt m b := by
  refine wordAt_eq fun i hi => ?_
  have hother : ¬ (a ≤ b + i ∧ b + i < a + Width.word.bytes) := by
    show ¬ (a ≤ b + i ∧ b + i < a + 4)
    omega
  rw [storeBytes, if_neg hother, byteOf_wordAt m b hi]

/-! ## 3. Harts and platforms -/

/-- A hart, its memory, and the environment the devices act on. -/
structure Hart (ε : Type*) where
  pc : BitVec 32
  x : Fin 32 → BitVec 32
  zero : x 0 = 0
  memory : Nat → BitVec 8
  env : ε

variable {ε : Type*}

/-- What is around the hart. -/
structure Platform (ε : Type*) where
  /-- Where the byte of an address is. -/
  index : BitVec 32 → Nat
  /-- A load from a device: the value it delivers, if it delivers one. -/
  load : BitVec 32 → ε → Option (Option (BitVec 32) × ε)
  /-- A store to a device, which may look at the hart. -/
  store : BitVec 32 → BitVec 32 → Hart ε → Option ε
  /-- The hart has been stopped. -/
  stopped : ε → Bool

namespace Platform

variable (P : Platform ε)

/-- The bytes from an address on, each from where the platform has it. -/
def bytesAt (m : Nat → BitVec 8) (address : BitVec 32) : Nat → BitVec 8 :=
  fun i => m (P.index (address + BitVec.ofNat 32 i))

/-- The memory after a store, one byte after the other. -/
def storeAt (n : Width) (address v : BitVec 32) (m : Nat → BitVec 8) : Nat → BitVec 8 :=
  (List.range n.bytes).foldl
    (fun m i => Function.update m (P.index (address + BitVec.ofNat 32 i)) (byteOf v i)) m

/-- The first `n` bytes from an address on stand in a row. -/
def InRow (address : BitVec 32) (n : Nat) : Prop :=
  ∀ i < n, P.index (address + BitVec.ofNat 32 i) = P.index address + i

section Rows

variable {P} {address : BitVec 32}

theorem byteOf_bytesAt (m : Nat → BitVec 8) {n i : Nat} (h : P.InRow address n) (hn : n ≤ 4)
    (hi : i < n) : byteOf (wordAt (P.bytesAt m address) 0) i =
      byteOf (wordAt m (P.index address)) i := by
  rw [byteOf_wordAt _ _ (by omega), byteOf_wordAt _ _ (by omega), bytesAt, Nat.zero_add, h i hi]

theorem wordAt_bytesAt (m : Nat → BitVec 8) (h : P.InRow address 4) :
    wordAt (P.bytesAt m address) 0 = wordAt m (P.index address) :=
  word_ext fun _ hi => byteOf_bytesAt m h (Nat.le_refl 4) hi

theorem extend_bytesAt (m : Nat → BitVec 8) {op : LoadOp} (h : P.InRow address op.width.bytes) :
    op.extend (wordAt (P.bytesAt m address) 0) = op.extend (wordAt m (P.index address)) := by
  have hle : op.width.bytes ≤ 4 := by cases op <;> decide
  exact LoadOp.extend_congr fun _ hi => byteOf_bytesAt m h hle hi

theorem storeAt_eq {n : Width} (v : BitVec 32) (m : Nat → BitVec 8)
    (h : P.InRow address n.bytes) :
    P.storeAt n address v m = storeBytes n (P.index address) v m := by
  -- the first `j` bytes have been stored
  have hfirst : ∀ j ≤ n.bytes, (List.range j).foldl
      (fun m i => Function.update m (P.index (address + BitVec.ofNat 32 i)) (byteOf v i)) m =
      fun k => if P.index address ≤ k ∧ k < P.index address + j then
        byteOf v (k - P.index address) else m k := by
    intro j hj
    induction j with
    | zero =>
        funext k
        rw [if_neg (by omega)]
        rfl
    | succ j ih =>
        funext k
        rw [List.range_succ, List.foldl_append, ih (by omega), List.foldl_cons, List.foldl_nil,
          h j (by omega)]
        by_cases hk : k = P.index address + j
        · rw [hk, Function.update_self, if_pos (by omega), Nat.add_sub_cancel_left]
        · rw [Function.update_of_ne hk]
          by_cases hin : P.index address ≤ k ∧ k < P.index address + j
          · rw [if_pos hin, if_pos (by omega)]
          · rw [if_neg hin, if_neg (by omega)]
  exact hfirst n.bytes (Nat.le_refl _)

end Rows

end Platform

namespace Hart

/-- A register is written; register 0 stays. -/
def write (h : Hart ε) (r : Fin 32) (v : BitVec 32) : Hart ε :=
  if hr : r = 0 then h
  else { h with x := Function.update h.x r v
                zero := (Function.update_of_ne (Ne.symm hr) _ _).trans h.zero }

def goto (h : Hart ε) (target : BitVec 32) : Hart ε := { h with pc := target }

/-- The next instruction. -/
def advance (h : Hart ε) : Hart ε := h.goto (h.pc + 4)

section Fields

variable (h : Hart ε) (r : Fin 32) (v target : BitVec 32)

@[simp] theorem write_zero : h.write 0 v = h := dif_pos rfl

@[simp] theorem write_pc : (h.write r v).pc = h.pc := by
  unfold write
  split <;> rfl

@[simp] theorem write_memory : (h.write r v).memory = h.memory := by
  unfold write
  split <;> rfl

@[simp] theorem write_env : (h.write r v).env = h.env := by
  unfold write
  split <;> rfl

theorem write_x (q : Fin 32) :
    (h.write r v).x q = if r = q ∧ r ≠ 0 then v else h.x q := by
  unfold write
  split
  · rename_i hr
    rw [if_neg fun e => e.2 hr]
  · rename_i hr
    show Function.update h.x r v q = _
    by_cases hq : r = q
    · subst hq
      rw [Function.update_self, if_pos ⟨rfl, hr⟩]
    · rw [Function.update_of_ne (Ne.symm hq), if_neg fun e => hq e.1]

/-- Nothing changes if a register is given the value it has. -/
theorem write_self : h.write r (h.x r) = h := by
  unfold write
  split
  · rfl
  · congr 1
    exact Function.update_eq_self r h.x

@[simp] theorem goto_pc : (h.goto target).pc = target := rfl
@[simp] theorem goto_x : (h.goto target).x = h.x := rfl
@[simp] theorem goto_memory : (h.goto target).memory = h.memory := rfl
@[simp] theorem goto_env : (h.goto target).env = h.env := rfl
@[simp] theorem advance_pc : h.advance.pc = h.pc + 4 := rfl
@[simp] theorem advance_x : h.advance.x = h.x := rfl
@[simp] theorem advance_memory : h.advance.memory = h.memory := rfl
@[simp] theorem advance_env : h.advance.env = h.env := rfl

end Fields

variable (P : Platform ε)

/-- A load: from a device, or from memory. -/
def loadFrom (op : LoadOp) (rd : Fin 32) (address : BitVec 32) (h : Hart ε) : Hart ε :=
  match P.load address h.env with
  | some (some v, env) => ({ h with env := env }.write rd v).advance
  | some (none, env) => { h with env := env }.advance
  | none => (h.write rd (op.extend (wordAt (P.bytesAt h.memory address) 0))).advance

/-- A store: to a device, or to memory. A hart that is stopped stays at its instruction. -/
def storeTo (n : Width) (address v : BitVec 32) (h : Hart ε) : Hart ε :=
  match P.store address v h with
  | some env => if P.stopped env then { h with env := env } else { h with env := env }.advance
  | none => { h with memory := P.storeAt n address v h.memory }.advance

/-- One instruction. The target of JALR is even. -/
def exec (i : Instr) (h : Hart ε) : Hart ε :=
  match i with
  | .reg op rd rs1 rs2 => (h.write rd (op.result (h.x rs1) (h.x rs2))).advance
  | .imm op rd rs1 value => (h.write rd (op.result (h.x rs1) value)).advance
  | .load op rd rs1 offset => h.loadFrom P op rd (h.x rs1 + offset)
  | .store n rs1 rs2 offset => h.storeTo P n (h.x rs1 + offset) (h.x rs2)
  | .branch op rs1 rs2 offset =>
      if op.taken (h.x rs1) (h.x rs2) then h.goto (h.pc + offset) else h.advance
  | .jal rd offset => (h.write rd (h.pc + 4)).goto (h.pc + offset)
  | .jalr rd rs1 offset => (h.write rd (h.pc + 4)).goto ((h.x rs1 + offset) &&& ~~~1#32)
  | .lui rd value => (h.write rd value).advance

/-- The word at the program counter. -/
def word (h : Hart ε) : BitVec 32 := wordAt (P.bytesAt h.memory h.pc) 0

/-- One step; there is none from a word that is no instruction. -/
def next (h : Hart ε) : Option (Hart ε) :=
  if P.stopped h.env then some h else (decode (h.word P)).map fun i => h.exec P i

/-- Some steps. -/
def steps (h : Hart ε) : Nat → Option (Hart ε)
  | 0 => some h
  | n + 1 => (steps h n).bind (next P)

variable {P}

theorem next_of_decodes {h : Hart ε} {i : Instr} (hrun : P.stopped h.env = false)
    (hi : Decodes (h.word P) i) : h.next P = some (h.exec P i) := by
  rw [next, hrun, if_neg Bool.false_ne_true, decode_of_decodes hi, Option.map_some]

end Hart

end SysProg.Lib.Rv32i
