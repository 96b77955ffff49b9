/-
  File:      SysProg/Vm/LoadStore.lean
  Subject:   WHAT STORES LEAVE IN MEMORY, AND WHAT LOADS BRING BACK.

  `mem_write` writes the bytes of the value, the lowest first, and then clears
  as many bytes again, the last of the four from the address on. So a store of
  a byte clears the byte three further on, and a store of a half word the two
  behind it; a store of a word is spared. A load of the same width does not
  look at these bytes.

  * `writeBytes_memory`, `clearBytes_memory`, `memWrite_memory` -- the memory
    after the two loops;
  * `memRead_bit`, `memRead_stored` -- what `mem_read` puts together;
  * `store_exact_iff` -- when a store changes exactly the bytes it names;
  * `load_after_store` -- the round trip.
-/
import SysProg.Vm.Decode

namespace SysProg.Vm

open Lib

/-! ## 1. The two loops of `mem_write` -/

theorem poke_memory (s : Machine) (k : Nat) (b : BitVec 8) (j : Nat) :
    (s.poke k b).memory j = if j = k then b else s.memory j :=
  Function.update_apply s.memory k b j

theorem writeBytes_memory (address : Nat) (data : BitVec 32) (i n : Nat) (s : Machine) (k : Nat) :
    (writeBytes address data i n s).memory k =
      if address + i ≤ k ∧ k < address + i + n then Rv32i.byteOf data (k - address)
      else s.memory k := by
  induction n generalizing i s with
  | zero => rw [writeBytes, if_neg (by omega)]
  | succ n ih =>
      rw [writeBytes, ih, poke_memory]
      by_cases hk : k = address + i
      · subst hk
        rw [if_neg (by omega), if_pos rfl, if_pos (by omega), Nat.add_sub_cancel_left]
        unfold Rv32i.byteOf
        rw [Nat.mul_comm]
        rfl
      · rw [if_neg hk]
        have hiff : address + (i + 1) ≤ k ∧ k < address + (i + 1) + n ↔
            address + i ≤ k ∧ k < address + i + (n + 1) := by omega
        simp only [hiff]

theorem clearBytes_memory (start j n : Nat) (s : Machine) (k : Nat) :
    (clearBytes start j n s).memory k =
      if start + j ≤ k ∧ k < start + j + n then 0 else s.memory k := by
  induction n generalizing j s with
  | zero => rw [clearBytes, if_neg (by omega)]
  | succ n ih =>
      rw [clearBytes, ih, poke_memory]
      by_cases hk : k = start + j
      · subst hk
        rw [if_neg (by omega), if_pos rfl, if_pos (by omega)]
      · rw [if_neg hk]
        have hiff : start + (j + 1) ≤ k ∧ k < start + (j + 1) + n ↔
            start + j ≤ k ∧ k < start + j + (n + 1) := by omega
        simp only [hiff]

/-- The memory after `mem_write`: the second loop has the last word. -/
theorem memWrite_memory (s : Machine) (address : BitVec 16) (data : BitVec 32) (n k : Nat) :
    (memWrite s address data n).memory k =
      if n < 4 ∧ address.toNat + (4 - n) ≤ k ∧ k < address.toNat + (4 - n) + n then 0
      else if address.toNat ≤ k ∧ k < address.toNat + n then
        Rv32i.byteOf data (k - address.toNat)
      else s.memory k := by
  unfold memWrite
  dsimp only
  by_cases hn : n < 4
  · rw [if_pos hn, clearBytes_memory, writeBytes_memory]
    simp only [hn, true_and, Nat.add_zero]
  · rw [if_neg hn, writeBytes_memory]
    simp only [hn, false_and, if_false, Nat.add_zero]

/-! ## 2. What a store leaves -/

/-- The bytes the second loop clears are zero already. -/
def NeighboursZero (n : Rv32i.Width) (a : Nat) (memory : Nat → BitVec 8) : Prop :=
  match n with
  | .byte => memory (a + 3) = 0
  | .half => memory (a + 2) = 0 ∧ memory (a + 3) = 0
  | .word => True

section Store

variable {s : Machine} {inst : BitVec 32} {n : Rv32i.Width}

/-- The bytes named are never among those cleared. -/
theorem memWrite_named (s : Machine) (address : BitVec 16) (v : BitVec 32) {n : Rv32i.Width}
    {i : Nat} (hi : i < n.bytes) :
    (memWrite s address v n.bytes).memory (address.toNat + i) = Rv32i.byteOf v i := by
  have hclear : ¬ (n.bytes < 4 ∧ address.toNat + (4 - n.bytes) ≤ address.toNat + i ∧
      address.toNat + i < address.toNat + (4 - n.bytes) + n.bytes) := by
    cases n <;> simp only [Rv32i.Width.bytes] at hi ⊢ <;> omega
  rw [memWrite_memory, if_neg hclear, if_pos (by omega), Nat.add_sub_cancel_left]

/-- A byte that is cleared. -/
theorem memWrite_cleared (s : Machine) (address : BitVec 16) (v : BitVec 32) {n k : Nat}
    (hn : n < 4) (h : address.toNat + (4 - n) ≤ k) (h' : k < address.toNat + 4) :
    (memWrite s address v n).memory k = 0 := by
  rw [memWrite_memory, if_pos (by omega)]

/-- **`mem_write` changes exactly the bytes named if and only if the others it clears are zero
    already.** -/
theorem memWrite_stores_iff (s : Machine) (address : BitVec 16) (v : BitVec 32)
    (n : Rv32i.Width) :
    Rv32i.Stores n address.toNat v s.memory (memWrite s address v n.bytes).memory ↔
      NeighboursZero n address.toNat s.memory := by
  constructor
  · intro h
    -- a byte that is cleared and not named was zero
    have hzero : ∀ k, n.bytes < 4 → address.toNat + (4 - n.bytes) ≤ k → k < address.toNat + 4 →
        address.toNat + n.bytes ≤ k → s.memory k = 0 := by
      intro k hn h1 h2 h3
      rw [← h.others k (Or.inr h3)]
      exact memWrite_cleared s address v hn h1 h2
    cases n with
    | byte =>
        have hb : Rv32i.Width.bytes .byte = 1 := rfl
        exact hzero _ (by decide) (by omega) (by omega) (by omega)
    | half =>
        have hb : Rv32i.Width.bytes .half = 2 := rfl
        exact ⟨hzero _ (by decide) (by omega) (by omega) (by omega),
          hzero _ (by decide) (by omega) (by omega) (by omega)⟩
    | word => trivial
  · intro h
    refine ⟨fun i hi => memWrite_named s address v hi, fun k hk => ?_⟩
    rw [memWrite_memory]
    split
    · rename_i hc
      cases n with
      | byte =>
          have hb : Rv32i.Width.bytes .byte = 1 := rfl
          have hk3 : k = address.toNat + 3 := by omega
          rw [hk3]
          exact Eq.symm h
      | half =>
          have hb : Rv32i.Width.bytes .half = 2 := rfl
          have hk23 : k = address.toNat + 2 ∨ k = address.toNat + 3 := by omega
          rcases hk23 with rfl | rfl
          · exact h.1.symm
          · exact h.2.symm
      | word => exact absurd hc.1 (by decide)
    · rw [if_neg (by omega)]

theorem store_eq (h : n.StoredBy inst) :
    store inst s = memWrite s ((storeAddress inst s).setWidth 16) (s.reg (rs2 inst)) n.bytes := by
  have h3 : func3 inst = n.funct3 := h.2
  unfold store
  dsimp only
  rw [h3]
  cases n <;> rfl

/-- The address of a store, as the format has it. -/
theorem storeAddress_eq (inst : BitVec 32) (s : Machine) :
    storeAddress inst s = s.reg (rs1 inst) + (Rv32i.offsetS inst).signExtend 32 := by
  rw [storeAddress, immS_eq]

theorem execute_store_memory (h : n.StoredBy inst) (hr : storeAddress inst s ∉ storeRoutines) :
    (execute inst s).memory =
      (memWrite s ((storeAddress inst s).setWidth 16) (s.reg (rs2 inst)) n.bytes).memory := by
  rw [execute_store inst s (opcode_of_bits (o := .opS) h.1), execS_store inst s hr,
    Machine.advance_memory, store_eq h]

end Store

/-- **A store changes exactly the bytes it names if and only if the bytes it clears besides are
    zero already.** -/
theorem store_exact_iff (s : Machine) (hrun : s.halted = false) (n : Rv32i.Width)
    (h : n.StoredBy (word s))
    (hr : s.reg (rs1 (word s)) + (Rv32i.offsetS (word s)).signExtend 32 ∉ storeRoutines) :
    let a := (s.reg (rs1 (word s)) + (Rv32i.offsetS (word s)).signExtend 32).toNat % memoryMax
    Rv32i.Stores n a (s.reg (rs2 (word s))) s.memory (step s).memory ↔
      NeighboursZero n a s.memory := by
  intro a
  rw [← storeAddress_eq] at hr
  have ha : ((storeAddress (word s) s).setWidth 16).toNat = a := by
    rw [storeAddress_eq, BitVec.toNat_setWidth]
    rfl
  have haddr : storeAddress (word s) (fetch s).2 = storeAddress (word s) s := by
    unfold storeAddress
    rw [fetch_reg]
  rw [step_running hrun, execute_store_memory h (haddr ▸ hr), haddr, fetch_reg, ← fetch_memory s,
    ← ha]
  exact memWrite_stores_iff _ _ _ _

/-- `SB x1, 64(x0)` with 0x12345678: in zeroed memory only byte 64 changes. -/
theorem store_exact_iff_zeroed :
    let s : Machine := { boot (fun _ => 0) [0x23, 0x00, 0x10, 0x04] [] with
      reg := fun r => if r = 1 then 0x12345678 else 0 }
    let a := (s.reg (rs1 (word s)) + (Rv32i.offsetS (word s)).signExtend 32).toNat % memoryMax
    a = 64 ∧ Rv32i.Stores .byte a (s.reg (rs2 (word s))) s.memory (step s).memory := by
  intro s a
  exact ⟨by decide +kernel, (store_exact_iff s rfl .byte (by decide +kernel)
    (by decide +kernel)).mpr (show s.memory (a + 3) = 0 by decide +kernel)⟩

/-- The same store with 1 in byte 67: it is cleared. -/
theorem store_clears_neighbour :
    ¬ ∀ s : Machine, s.halted = false → ∀ n : Rv32i.Width, n.StoredBy (word s) →
      s.reg (rs1 (word s)) + (Rv32i.offsetS (word s)).signExtend 32 ∉ storeRoutines →
      (s.reg (rs1 (word s)) + (Rv32i.offsetS (word s)).signExtend 32).toNat % memoryMax + 4 ≤
        memoryMax →
      Rv32i.Stores n
        ((s.reg (rs1 (word s)) + (Rv32i.offsetS (word s)).signExtend 32).toNat % memoryMax)
        (s.reg (rs2 (word s))) s.memory (step s).memory := by
  intro h
  have h0 := h (boot (fun k => if k = 67 then 1 else 0) [0x23, 0x00, 0x10, 0x04] []) rfl .byte
    (by decide +kernel) (by decide +kernel) (by decide +kernel)
  exact absurd (h0.others 67 (Or.inr (by decide +kernel))) (by decide +kernel)

/-! ## 3. What a load brings back -/

/-- The bits `mem_read` puts together. -/
theorem readBytes_bit (address n : Nat) (result : BitVec 32) (s : Machine) (i : Nat) (hi : i < 32) :
    (readBytes address n result s).1.getLsbD i =
      (result.getLsbD i ||
        (decide (i < 8 * n) && (s.memory (address + i / 8)).getLsbD (i % 8))) := by
  induction n generalizing result s with
  | zero => simp [readBytes]
  | succ n ih =>
      rw [readBytes, ih, BitVec.getLsbD_or, BitVec.getLsbD_shiftLeft, BitVec.getLsbD_setWidth]
      show (_ || (_ && (s.memory (address + i / 8)).getLsbD (i % 8))) = _
      by_cases hlow : i < 8 * n
      · have hlow' : i < n * 8 := by omega
        have hlow'' : i < 8 * (n + 1) := by omega
        simp [hlow, hlow', hlow'']
      · by_cases hin : i < 8 * (n + 1)
        · have hq : i / 8 = n := by omega
          have hm : i - n * 8 = i % 8 := by omega
          have hge : ¬ i < n * 8 := by omega
          have hb : i % 8 < 32 := by omega
          rw [hq, hm]
          simp [hlow, hge, hin, hi, hb]
        · have hz : (s.memory (address + n)).getLsbD (i - n * 8) = false :=
            BitVec.getLsbD_of_ge _ _ (by omega)
          rw [hz]
          simp [hlow, hin]

theorem memRead_bit (s : Machine) (address : BitVec 16) (n i : Nat) (hi : i < 32) :
    (memRead s address n).1.getLsbD i =
      (decide (i < 8 * n) && (s.memory (address.toNat + i / 8)).getLsbD (i % 8)) := by
  rw [memRead, readBytes_bit _ _ _ _ _ hi]
  simp

/-- Where the low bytes of `v` are in memory, `mem_read` delivers them. -/
theorem memRead_stored {s : Machine} {address : BitVec 16} {v : BitVec 32} {n : Nat}
    (h : ∀ i < n, s.memory (address.toNat + i) = Rv32i.byteOf v i) :
    (memRead s address n).1 = (v.setWidth (8 * n)).setWidth 32 := by
  apply BitVec.eq_of_getLsbD_eq
  intro i hi
  rw [memRead_bit _ _ _ _ hi, BitVec.getLsbD_setWidth, BitVec.getLsbD_setWidth]
  by_cases hn : i < 8 * n
  · rw [h (i / 8) (by omega), Rv32i.byteOf, BitVec.getLsbD_extractLsb', Nat.div_add_mod]
    have hm : i % 8 < 8 := Nat.mod_lt _ (by decide)
    simp [hn, hi, hm]
  · simp [hn]

section Load

variable {s : Machine} {inst : BitVec 32} {op : Rv32i.LoadOp}

theorem loadAddress_eq (inst : BitVec 32) (s : Machine) :
    loadAddress inst s = s.reg (rs1 inst) + (Rv32i.offsetI inst).signExtend 32 := by
  rw [loadAddress, immI_eq]
  rfl

theorem execIMem_load (hr : loadAddress inst s ∉ loadRoutines) :
    execIMem inst s = (load inst s).advance := by
  simp only [loadRoutines, List.mem_cons, List.not_mem_nil, or_false, not_or] at hr
  unfold execIMem
  dsimp only
  rw [if_neg hr.1, if_neg hr.2]

/-- The conversion of a load. -/
def converted (op : Rv32i.LoadOp) (x : BitVec 32) : BitVec 32 :=
  match op with
  | .lb => signExtend x 8
  | .lh => signExtend x 16
  | .lw => x
  | .lbu => (x.setWidth 8).setWidth 32
  | .lhu => (x.setWidth 16).setWidth 32

theorem load_reg (h : op.EncodedBy inst) (hrd : rd inst ≠ 0) :
    (load inst s).reg (rd inst) =
      converted op (memRead s ((loadAddress inst s).setWidth 16) op.width.bytes).1 := by
  have h3 : func3 inst = op.funct3 := h.2
  unfold load
  rw [h3]
  cases op <;> exact regWrite_reg_self _ _ hrd

/-- `sign_extend` of the low `n` bits of a value. -/
theorem signExtend_low {n : Nat} (v : BitVec 32) (hn : 0 < n) (hn' : n ≤ 32) :
    signExtend ((v.setWidth n).setWidth 32) n = (v.setWidth n).signExtend 32 := by
  have hlt : ((v.setWidth n).setWidth 32).toNat < 2 ^ n := by
    rw [BitVec.toNat_setWidth]
    exact Nat.lt_of_le_of_lt (Nat.mod_le _ _) (v.setWidth n).isLt
  rw [signExtend_eq _ hn hlt, BitVec.setWidth_setWidth_of_le _ hn', BitVec.setWidth_eq]

/-- On a value cut to the width of the load the conversion extends it as the load is to. -/
theorem converted_stored (op : Rv32i.LoadOp) (v : BitVec 32) :
    converted op ((v.setWidth (8 * op.width.bytes)).setWidth 32) = op.extend v := by
  cases op with
  | lb => exact signExtend_low v (by decide) (by decide)
  | lh => exact signExtend_low v (by decide) (by decide)
  | lw =>
      show (v.setWidth 32).setWidth 32 = v
      rw [BitVec.setWidth_eq, BitVec.setWidth_eq]
  | lbu =>
      show (((v.setWidth 8).setWidth 32).setWidth 8).setWidth 32 = (v.setWidth 8).setWidth 32
      rw [BitVec.setWidth_setWidth_of_le (v.setWidth 8) (show 8 ≤ 32 by decide), BitVec.setWidth_eq]
  | lhu =>
      show (((v.setWidth 16).setWidth 32).setWidth 16).setWidth 32 = (v.setWidth 16).setWidth 32
      rw [BitVec.setWidth_setWidth_of_le (v.setWidth 16) (show 16 ≤ 32 by decide),
        BitVec.setWidth_eq]

theorem execute_load_reg (h : op.EncodedBy inst) (hrd : rd inst ≠ 0)
    (hr : loadAddress inst s ∉ loadRoutines) :
    (execute inst s).reg (rd inst) =
      converted op (memRead s ((loadAddress inst s).setWidth 16) op.width.bytes).1 := by
  rw [execute, opcode_of_bits (o := .opIMem) h.1]
  dsimp only
  rw [execIMem_load hr, Machine.advance_reg_of_ne _ (rd_ne_rPc inst), load_reg h hrd]

end Load

/-- **A load behind the store of its width, with the same register and offset, brings the value
    back**, extended as the load is to. -/
theorem load_after_store (s : Machine) (st ld : BitVec 32) (op : Rv32i.LoadOp)
    (hst : op.width.StoredBy st) (hld : op.EncodedBy ld) (hrs1 : rs1 ld = rs1 st)
    (hoffset : Rv32i.offsetI ld = Rv32i.offsetS st) (hrd : rd ld ≠ 0)
    (hr : s.reg (rs1 st) + (Rv32i.offsetS st).signExtend 32 ∉ storeRoutines ++ loadRoutines) :
    (execute ld (execute st s)).reg (rd ld) = op.extend (s.reg (rs2 st)) := by
  obtain ⟨hrs, hrl⟩ := not_or.mp fun h => hr (List.mem_append.mpr h)
  rw [← storeAddress_eq] at hrs hrl
  -- a store writes no register, so the load computes the same address
  have hstore : execute st s = execS st s := execute_store st s (opcode_of_bits (o := .opS) hst.1)
  have haddr : loadAddress ld (execute st s) = storeAddress st s := by
    rw [loadAddress_eq, storeAddress_eq, hrs1, hoffset, hstore, execS_reg st s (rs1_ne_rPc st)]
  have hbytes : ∀ i < op.width.bytes, (execute st s).memory
      (((storeAddress st s).setWidth 16).toNat + i) = Rv32i.byteOf (s.reg (rs2 st)) i := by
    intro i hi
    rw [execute_store_memory hst hrs, memWrite_named s _ _ hi]
  rw [execute_load_reg hld hrd (haddr ▸ hrl), haddr, memRead_stored hbytes, converted_stored]

/-- `SH x1, -2(x2)` and `LH x3, -2(x2)` with 0x1FFFE in `x1` and 0x100 in `x2`: -2 comes back. -/
theorem load_after_store_half :
    let s : Machine := { boot (fun _ => 0) [] [] with
      reg := fun r => if r = 1 then 0x1FFFE else if r = 2 then 0x100 else 0 }
    (execute 0xFFE11183 (execute 0xFE111F23 s)).reg 3 = -2 := by
  intro s
  have h := load_after_store s 0xFE111F23 0xFFE11183 .lh (by decide +kernel) (by decide +kernel)
    (by decide +kernel) (by decide +kernel) (by decide +kernel) (by decide +kernel)
  exact h.trans (by decide +kernel)

end SysProg.Vm
