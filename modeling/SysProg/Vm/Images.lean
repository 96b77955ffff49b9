/-
  File:      SysProg/Vm/Images.lean
  Subject:   THE IMAGES UNDER examples/: what the VM prints when it runs them,
             for every input and whatever was in memory.

  * `sum_prints` -- 5_sum.mi prints the sum of its numbers;
  * `read_goes` -- the function of add_2_numbers_withfunc.mi, with its frame;
  * `add_images_agree_iff` -- the two images that add two numbers, against
    each other.
-/
import SysProg.Vm.Logic

namespace SysProg.Vm

open Lib

open Rv32i (Hart)

/-- For the register numbers of the listings. -/
local instance registerFile : NeZero 32 := ⟨by decide⟩

/-! ## 1. An image in memory -/

/-- The words as bytes, the lowest first. -/
def bytes (ws : List (BitVec 32)) : List (BitVec 8) :=
  ws.flatMap fun w => [Rv32i.byteOf w 0, Rv32i.byteOf w 1, Rv32i.byteOf w 2, Rv32i.byteOf w 3]

/-- The image of a listing: its words, those behind them, and zeros up to 2048 bytes. -/
def Listing.image (code : Listing) (rest : List (BitVec 32)) : List (BitVec 8) :=
  let front := bytes (code.lines.map Prod.fst ++ rest)
  front ++ List.replicate (2048 - front.length) 0

theorem bytes_cons (w : BitVec 32) (ws : List (BitVec 32)) :
    bytes (w :: ws) = [Rv32i.byteOf w 0, Rv32i.byteOf w 1, Rv32i.byteOf w 2, Rv32i.byteOf w 3]
      ++ bytes ws := rfl

theorem bytes_getElem? (ws : List (BitVec 32)) (tail : List (BitVec 8)) {k : Nat} {w : BitVec 32}
    (hk : ws[k]? = some w) {i : Nat} (hi : i < 4) :
    (bytes ws ++ tail)[4 * k + i]? = some (Rv32i.byteOf w i) := by
  induction ws generalizing k with
  | nil => cases hk
  | cons v vs ih =>
      rw [bytes_cons, List.append_assoc]
      cases k with
      | zero =>
          cases hk
          rw [Nat.mul_zero, Nat.zero_add, List.getElem?_append_left hi]
          match i, hi with
          | 0, _ => rfl
          | 1, _ => rfl
          | 2, _ => rfl
          | 3, _ => rfl
      | succ k =>
          rw [List.getElem?_append_right (show 4 ≤ 4 * (k + 1) + i by omega)]
          show (bytes vs ++ tail)[4 * (k + 1) + i - 4]? = _
          rw [show 4 * (k + 1) + i - 4 = 4 * k + i by omega]
          exact ih hk

theorem image_in (code : Listing) (rest : List (BitVec 32)) (memory : Nat → BitVec 8) :
    code.In (loaded memory (code.image rest)) := by
  intro k w i hl
  have hk : (code.lines.map Prod.fst ++ rest)[k]? = some w := by
    have hlt : k < (code.lines.map Prod.fst).length := by
      rw [List.length_map]
      exact (List.getElem?_eq_some_iff.mp hl).1
    rw [List.getElem?_append_left hlt, List.getElem?_map, hl]
    rfl
  refine Rv32i.wordAt_eq fun i hi => ?_
  rw [loaded, Listing.image, bytes_getElem? _ _ hk hi]
  rfl

theorem vmAt_eq (memory : Nat → BitVec 8) (image : List (BitVec 8)) (stdin : List Char) (n : Nat) :
    vmAt memory image stdin n = step^[n] (boot memory image stdin) := by
  induction n with
  | zero => rfl
  | succ n ih =>
      rw [Function.iterate_succ_apply', ← ih]
      rfl

/-- What the image gets to, the VM gets to. -/
theorem halts_of_goes {memory : Nat → BitVec 8} {image : List (BitVec 8)} {stdin out : List Char}
    (h : Goes (fun h => h.env.halted = true ∧ h.env.stdout = out)
      (bootHart memory image stdin)) :
    ∃ n, (vmAt memory image stdin n).halted = true ∧ (vmAt memory image stdin n).stdout = out := by
  obtain ⟨n, h', hs, hstop, hout⟩ := h _ (boot_shows memory image stdin)
  rw [← vmAt_eq] at hs
  refine ⟨n, ?_, ?_⟩
  · rw [← hstop, ← hs.console]
    rfl
  · rw [← hout, ← hs.console]
    rfl

/-! ## 2. 5_sum.mi -/

/-- 5_sum.mi. -/
def sumListing : Listing where
  lines := [
    (0x7ff00113, .imm .addi 2 0 0x7ff),
    (0x00c000ef, .jal 1 12),
    (0x000017b7, .lui 15 0x1000),
    (0x80078623, .store .byte 15 0 0xfffff80c),
    -- main
    (0x000017b7, .lui 15 0x1000),
    (0x81678793, .imm .addi 15 15 0xfffff816),
    (0x0007a783, .load .lw 15 15 0),
    (0x02078c63, .branch .beq 15 0 56),
    (0x00500713, .imm .addi 14 0 5),
    (0x00000693, .imm .addi 13 0 0),
    (0x00001637, .lui 12 0x1000),
    (0x81660613, .imm .addi 12 12 0xfffff816),
    -- the loop
    (0x00f686b3, .reg .add 13 13 15),
    (0xfff70713, .imm .addi 14 14 0xffffffff),
    (0x00070663, .branch .beq 14 0 12),
    (0x00062783, .load .lw 15 12 0),
    (0xfe0798e3, .branch .bne 15 0 0xfffffff0),
    -- behind the loop
    (0x000017b7, .lui 15 0x1000),
    (0x80d7a223, .store .word 15 13 0xfffff804),
    (0x00000513, .imm .addi 10 0 0),
    (0x00008067, .jalr 0 1 0),
    (0x00078693, .imm .addi 13 15 0),
    (0xfedff06f, .jal 0 0xffffffec)]
  decoded := by decide
  fits := by decide

/-- The file: the word behind the code is no instruction. -/
def sumImage : List (BitVec 8) := sumListing.image [0x00000804]

/-- What it adds up: `v` is the last number read, `k` are the rounds that are left. A failed read
    leaves the number that was there. -/
def total : Nat → BitVec 32 → List Char → BitVec 32
  | 0, _, _ => 0#32
  | k + 1, v, stdin =>
      if v = 0 then 0#32
      else v + total k ((readNumber stdin).1.getD v) (readNumber stdin).2

section Sum

variable {m : Nat → BitVec 8} {h : Hart Console} {c : Console}

/-- The front of a round: the number is added and the rounds are counted. -/
theorem sum_add (hin : sumListing.In m) (hc : c.halted = false) {left : BitVec 32}
    (h14 : h.x 14 + 0xffffffff = left) :
    Goes (fun h' => ∃ h₁, h' = put h₁ (if left = 0 then 17 else 15) m c ∧
        h₁.x 13 = h.x 13 + h.x 15 ∧ h₁.x 14 = left ∧
        ∀ r, r ≠ 13 → r ≠ 14 → h₁.x r = h.x r) (put h 12 m c) := by
  refine goes_reg hin rfl hc rfl rfl ?_
  refine goes_addi hin rfl hc rfl h14 ?_
  refine goes_branch (j := 17) (p := left = 0) hin rfl hc trivial (by decide) rfl ?_ ?_
  · simp [Rv32i.BOp.taken, Hart.write_x, h.zero]
  refine goes_of ⟨_, rfl, rfl, rfl, fun r h13 h14 => ?_⟩
  simp [Hart.write_x, Ne.symm h13, Ne.symm h14]

/-- The back of a round: the next number is read. -/
theorem sum_read (hin : sumListing.In m) (hc : c.halted = false) (h12 : h.x 12 = virRInt) :
    Goes (fun h' => ∃ h₁, h' = put h₁
          (if (readNumber c.stdin).1.getD (h.x 15) ≠ 0 then 12 else 17) m
          { c with stdin := (readNumber c.stdin).2 } ∧
        h₁.x 15 = (readNumber c.stdin).1.getD (h.x 15) ∧ ∀ r, r ≠ 15 → h₁.x r = h.x r)
      (put h 15 m c) := by
  refine goes_readInt hin rfl hc h12 (by decide) (by decide) rfl ?_
  refine goes_branch (j := 12) (p := (readNumber c.stdin).1.getD (h.x 15) ≠ 0) hin rfl hc trivial
    (by decide) rfl ?_ ?_
  · simp [Rv32i.BOp.taken, Hart.write_x, h.zero]
  refine goes_of ⟨_, rfl, rfl, fun r h15 => ?_⟩
  simp [Hart.write_x, Ne.symm h15]

/-- The loop: there are `k + 1` rounds left, and the number in register 15 was read. -/
theorem sum_loop (hin : sumListing.In m) (k : Nat) (hk : k < 5) (hc : c.halted = false)
    (h12 : h.x 12 = virRInt) (h14 : h.x 14 = BitVec.ofNat 32 (k + 1)) (h15 : h.x 15 ≠ 0) :
    Goes (fun h' => ∃ h₁ c₁, h' = put h₁ 17 m c₁ ∧
        h₁.x 13 = h.x 13 + total (k + 1) (h.x 15) c.stdin ∧ h₁.x 1 = h.x 1 ∧
        c₁.stdout = c.stdout ∧ c₁.halted = false) (put h 12 m c) := by
  induction k generalizing h c with
  | zero =>
      have hleft : h.x 14 + 0xffffffff = 0 := by
        rw [h14]
        decide
      refine goes_trans (sum_add hin hc hleft) fun h' hadd => ?_
      obtain ⟨h₁, rfl, hsum, -, hother⟩ := hadd
      rw [if_pos rfl]
      refine goes_of ⟨h₁, c, rfl, ?_, hother 1 (by decide) (by decide), rfl, hc⟩
      rw [hsum, total, if_neg h15, total, BitVec.add_zero]
  | succ k ih =>
      have hleft : h.x 14 + 0xffffffff = BitVec.ofNat 32 (k + 1) := by
        rw [h14]
        bv_omega
      have hne : BitVec.ofNat 32 (k + 1) ≠ 0 := by
        bv_omega
      refine goes_trans (sum_add hin hc hleft) fun h' hadd => ?_
      obtain ⟨h₁, rfl, hsum, hcount, hother⟩ := hadd
      rw [if_neg hne]
      have h₁15 := hother 15 (by decide) (by decide)
      have h₁12 := (hother 12 (by decide) (by decide)).trans h12
      refine goes_trans (sum_read hin hc h₁12) fun h' hread => ?_
      obtain ⟨h₂, rfl, hv, hother'⟩ := hread
      have h₂1 : h₂.x 1 = h.x 1 :=
        (hother' 1 (by decide)).trans (hother 1 (by decide) (by decide))
      have h₂13 : h₂.x 13 = h.x 13 + h.x 15 := (hother' 13 (by decide)).trans hsum
      rw [h₁15] at hv ⊢
      rw [total, if_neg h15, ← BitVec.add_assoc, ← h₂13, ← hv, ← h₂1]
      by_cases hzero : h₂.x 15 = 0
      · rw [if_neg (not_not_intro hzero)]
        refine goes_of ⟨h₂, _, rfl, ?_, rfl, rfl, hc⟩
        rw [total, if_pos hzero, BitVec.add_zero]
      · rw [if_pos hzero]
        refine ih (c := { c with stdin := (readNumber c.stdin).2 }) (by omega) hc ?_ ?_ hzero
        · rw [hother' 12 (by decide), h₁12]
        · rw [hother' 14 (by decide), hcount]

/-- In front of the loop. -/
theorem sum_init (hin : sumListing.In m) (hc : c.halted = false) :
    Goes (fun h' => ∃ h₁, h' = put h₁ 12 m c ∧ h₁.x 12 = virRInt ∧ h₁.x 13 = 0#32 ∧
        h₁.x 14 = BitVec.ofNat 32 (4 + 1) ∧ h₁.x 15 = h.x 15 ∧ h₁.x 1 = h.x 1) (put h 8 m c) := by
  refine goes_addi (a := 5) hin rfl hc h.zero rfl ?_
  refine goes_addi (a := 0) hin rfl hc h.zero rfl ?_
  refine goes_lui hin rfl hc (by decide) ?_
  refine goes_addi (b := 0x1000) (a := virRInt) hin rfl hc rfl (by decide) ?_
  exact goes_of ⟨_, rfl, rfl, rfl, rfl, rfl, rfl⟩

/-- Behind the loop: the sum is printed and the program returns. -/
theorem sum_end (hin : sumListing.In m) (hc : c.halted = false)
    (h1 : h.x 1 = BitVec.ofNat 32 (4 * 2)) :
    Goes (fun h' => h'.env.halted = true ∧ h'.env.stdout =
        c.stdout ++ formatInt (h.x 13) ++ "CPU Halt Requested\n".toList) (put h 17 m c) := by
  refine goes_lui hin rfl hc (by decide) ?_
  refine goes_routine (b := 0x1000) (a := virWInt) hin rfl hc rfl (by decide) (by decide) rfl hc ?_
  refine goes_addi (a := 0) hin rfl hc h.zero rfl ?_
  refine goes_ret (j := 2) hin rfl hc h1 ?_
  refine goes_lui hin rfl hc (by decide) ?_
  exact goes_halt (b := 0x1000) hin rfl hc rfl (by decide) ⟨rfl, rfl⟩

/-- The front of `main`. -/
theorem sum_main (hin : sumListing.In m) (hc : c.halted = false) :
    Goes (fun h' => ∃ h₁, h₁.x 15 = (readNumber c.stdin).1.getD virRInt ∧
        h₁.x 1 = BitVec.ofNat 32 (4 * 2) ∧
        h' = put h₁ (if h₁.x 15 = 0 then 21 else 8) m { c with stdin := (readNumber c.stdin).2 })
      (put h 0 m c) := by
  refine goes_addi (a := 0x7ff) hin rfl hc h.zero rfl ?_
  refine goes_jal (j := 4) hin rfl hc (by decide) rfl ?_
  refine goes_lui hin rfl hc (by decide) ?_
  refine goes_addi (b := 0x1000) (a := virRInt) hin rfl hc rfl (by decide) ?_
  refine goes_readInt (b := virRInt) hin rfl hc rfl (by decide) (by decide) rfl ?_
  refine goes_branch (j := 21) (p := (readNumber c.stdin).1.getD virRInt = 0) hin rfl hc trivial
    (by decide) rfl ?_ ?_
  · simp [Rv32i.BOp.taken, Hart.write_x, h.zero]
  exact goes_of ⟨_, rfl, rfl, rfl⟩

/-- **5_sum.mi prints the sum of its numbers**: of five at most, and up to the first 0. -/
theorem sum_prints (memory : Nat → BitVec 8) (stdin : List Char) :
    ∃ n, (vmAt memory sumImage stdin n).halted = true ∧
      (vmAt memory sumImage stdin n).stdout =
        formatInt (total 5 ((readNumber stdin).1.getD virRInt) (readNumber stdin).2)
          ++ "CPU Halt Requested\n".toList := by
  have hin : sumListing.In (loaded memory sumImage) := image_in sumListing _ memory
  apply halts_of_goes
  refine goes_trans (sum_main (h := bootHart memory sumImage stdin) (c := ⟨stdin, [], false⟩) hin
    rfl) fun h' hmain => ?_
  obtain ⟨h₁, h15, h1, rfl⟩ := hmain
  rw [← h15]
  by_cases hzero : h₁.x 15 = 0
  · rw [if_pos hzero, total, if_pos hzero]
    refine goes_addi (a := 0#32) hin rfl rfl hzero rfl ?_
    refine goes_jal (j := 17) hin rfl rfl (by decide) rfl ?_
    rw [Hart.write_zero]
    have h13 : (h₁.write 13 0#32).x 13 = 0#32 := rfl
    have hend := sum_end (h := h₁.write 13 0#32) (c := ⟨(readNumber stdin).2, [], false⟩) hin rfl h1
    rw [h13] at hend
    exact hend
  · rw [if_neg hzero]
    refine goes_trans (sum_init hin rfl) fun h' hinit => ?_
    obtain ⟨h₂, rfl, h12, h13, h14, h15', h1'⟩ := hinit
    rw [← h15'] at hzero ⊢
    refine goes_trans (sum_loop hin 4 (by decide) rfl h12 h14 hzero) fun h' hloop => ?_
    obtain ⟨h₃, c₃, rfl, hsum, h1'', hout, hc⟩ := hloop
    rw [h13, BitVec.zero_add] at hsum
    have hend := sum_end hin hc (h1''.trans (h1'.trans h1))
    rw [hout, hsum] at hend
    exact hend

end Sum

/-! ## 3. add_2_numbers.mi -/

/-- add_2_numbers.mi. -/
def addListing : Listing where
  lines := [
    (0x7ff00113, .imm .addi 2 0 0x7ff),
    (0x00c000ef, .jal 1 12),
    (0x000017b7, .lui 15 0x1000),
    (0x80078623, .store .byte 15 0 0xfffff80c),
    -- main
    (0x00001737, .lui 14 0x1000),
    (0x81670793, .imm .addi 15 14 0xfffff816),
    (0x0007a683, .load .lw 13 15 0),
    (0x0007a783, .load .lw 15 15 0),
    (0x00d787b3, .reg .add 15 15 13),
    (0x80f72223, .store .word 14 15 0xfffff804),
    (0x00000513, .imm .addi 10 0 0),
    (0x00008067, .jalr 0 1 0)]
  decoded := by decide
  fits := by decide

/-- The file. -/
def addImage : List (BitVec 8) := addListing.image [0x00000804, 0x00000816]

/-- The two numbers an image reads, with what a register holds if there is none. -/
def sumOfTwo (first second : BitVec 32) (stdin : List Char) : BitVec 32 :=
  (readNumber stdin).1.getD first + (readNumber (readNumber stdin).2).1.getD second

/-- The registers of the two numbers hold 0 and the address of the routine. -/
theorem add_goes {m : Nat → BitVec 8} {h : Hart Console} {c : Console} (hin : addListing.In m)
    (hc : c.halted = false) (h13 : h.x 13 = 0#32) :
    Goes (fun h' => h'.env.halted = true ∧ h'.env.stdout =
        c.stdout ++ formatInt (sumOfTwo 0 virRInt c.stdin) ++ "CPU Halt Requested\n".toList)
      (put h 0 m c) := by
  refine goes_addi (a := 0x7ff) hin rfl hc h.zero rfl ?_
  refine goes_jal (j := 4) hin rfl hc (by decide) rfl ?_
  refine goes_lui hin rfl hc (by decide) ?_
  refine goes_addi (b := 0x1000) (a := virRInt) hin rfl hc rfl (by decide) ?_
  refine goes_readInt (b := virRInt) hin rfl hc rfl (by decide) (by decide) rfl ?_
  refine goes_readInt (b := virRInt) hin rfl hc rfl (by decide) (by decide) rfl ?_
  refine goes_reg hin rfl hc rfl rfl ?_
  refine goes_routine (b := 0x1000) (a := virWInt) hin rfl hc rfl (by decide) (by decide) rfl hc ?_
  refine goes_addi (a := 0) hin rfl hc h.zero rfl ?_
  refine goes_ret (j := 2) hin rfl hc rfl ?_
  refine goes_lui hin rfl hc (by decide) ?_
  refine goes_halt (b := 0x1000) hin rfl hc rfl (by decide) ⟨rfl, ?_⟩
  have hsum : (readNumber (readNumber c.stdin).2).1.getD virRInt +
      (readNumber c.stdin).1.getD (h.x 13) = sumOfTwo 0 virRInt c.stdin := by
    rw [h13, BitVec.add_comm]
    rfl
  rw [← hsum]
  rfl

/-! ## 4. add_2_numbers_withfunc.mi -/

/-- add_2_numbers_withfunc.mi. -/
def withfuncListing : Listing where
  lines := [
    (0x7ff00113, .imm .addi 2 0 0x7ff),
    (0x044000ef, .jal 1 68),
    (0x000017b7, .lui 15 0x1000),
    (0x80078623, .store .byte 15 0 0xfffff80c),
    -- the function that reads a number
    (0xfe010113, .imm .addi 2 2 0xffffffe0),
    (0x00812e23, .store .word 2 8 28),
    (0x02010413, .imm .addi 8 2 32),
    (0x000017b7, .lui 15 0x1000),
    (0x81678793, .imm .addi 15 15 0xfffff816),
    (0xfef42623, .store .word 8 15 0xffffffec),
    (0xfec42783, .load .lw 15 8 0xffffffec),
    (0x0007a783, .load .lw 15 15 0),
    (0xfef42423, .store .word 8 15 0xffffffe8),
    (0xfe842783, .load .lw 15 8 0xffffffe8),
    (0x00078513, .imm .addi 10 15 0),
    (0x01c12403, .load .lw 8 2 28),
    (0x02010113, .imm .addi 2 2 32),
    (0x00008067, .jalr 0 1 0),
    -- main
    (0xfe010113, .imm .addi 2 2 0xffffffe0),
    (0x00112e23, .store .word 2 1 28),
    (0x00812c23, .store .word 2 8 24),
    (0x02010413, .imm .addi 8 2 32),
    (0xfb9ff0ef, .jal 1 0xffffffb8),
    (0xfea42623, .store .word 8 10 0xffffffec),
    (0xfb1ff0ef, .jal 1 0xffffffb0),
    (0xfea42423, .store .word 8 10 0xffffffe8),
    (0x000017b7, .lui 15 0x1000),
    (0x80478793, .imm .addi 15 15 0xfffff804),
    (0xfec42683, .load .lw 13 8 0xffffffec),
    (0xfe842703, .load .lw 14 8 0xffffffe8),
    (0x00e68733, .reg .add 14 13 14),
    (0x00e7a023, .store .word 15 14 0),
    (0x00000793, .imm .addi 15 0 0),
    (0x00078513, .imm .addi 10 15 0),
    (0x01c12083, .load .lw 1 2 28),
    (0x01812403, .load .lw 8 2 24),
    (0x02010113, .imm .addi 2 2 32),
    (0x00008067, .jalr 0 1 0)]
  decoded := by decide
  fits := by decide

/-- The file. -/
def withfuncImage : List (BitVec 8) := withfuncListing.image [0x00000816, 0x00000804]

section Withfunc

variable {m : Nat → BitVec 8} {h : Hart Console} {c : Console}

/-- The function: it delivers the number in register 10, and leaves the frame of its caller and
    the registers that are his. -/
theorem read_goes (hin : withfuncListing.In m) (hc : c.halted = false) (h2 : h.x 2 = 0x7df)
    {j : Nat} (h1 : h.x 1 = BitVec.ofNat 32 (4 * j)) :
    Goes (fun h' => ∃ h₁ m₁, h' = put h₁ j m₁ { c with stdin := (readNumber c.stdin).2 } ∧
        h₁.x 10 = (readNumber c.stdin).1.getD virRInt ∧ h₁.x 2 = h.x 2 ∧ h₁.x 8 = h.x 8 ∧
        withfuncListing.In m₁ ∧
        ∀ a, 0x7df ≤ a → Rv32i.wordAt m₁ a = Rv32i.wordAt m a) (put h 4 m c) := by
  obtain ⟨v, hv⟩ : ∃ v, (readNumber c.stdin).1.getD virRInt = v := ⟨_, rfl⟩
  rw [hv]
  refine goes_addi (a := 0x7bf) hin rfl hc h2 (by decide) ?_
  -- the register of the caller is saved
  refine goes_storeWord (b := 0x7bf) (a := 0x7db) (i := 0x7db) (x := h.x 8) hin rfl hc rfl
    (by decide) (by decide) (by decide) (by decide) rfl ?_
  have hin₁ := hin.storeBytes (a := 0x7db) (by decide) (h.x 8)
  refine goes_addi (b := 0x7bf) (a := 0x7df) hin₁ rfl hc rfl (by decide) ?_
  refine goes_lui hin₁ rfl hc (by decide) ?_
  refine goes_addi (b := 0x1000) (a := virRInt) hin₁ rfl hc rfl (by decide) ?_
  -- the address of the routine goes through memory, and so does the number
  refine goes_storeWord (b := 0x7df) (a := 0x7cb) (i := 0x7cb) (x := virRInt) hin₁ rfl hc rfl
    (by decide) (by decide) (by decide) (by decide) rfl ?_
  have hin₂ := hin₁.storeBytes (a := 0x7cb) (by decide) virRInt
  refine goes_loadWord (b := 0x7df) (a := 0x7cb) (i := 0x7cb) (x := virRInt) hin₂ rfl hc rfl
    (by decide) (by decide) (by decide) (by decide) (Rv32i.wordAt_storeBytes ..) ?_
  refine goes_readInt (b := virRInt) (x := v) hin₂ rfl hc rfl (by decide) (by decide) hv ?_
  refine goes_storeWord (b := 0x7df) (a := 0x7c7) (i := 0x7c7) (x := v) hin₂ rfl hc rfl
    (by decide) (by decide) (by decide) (by decide) rfl ?_
  have hin₃ := hin₂.storeBytes (a := 0x7c7) (by decide) v
  refine goes_loadWord (b := 0x7df) (a := 0x7c7) (i := 0x7c7) (x := v) hin₃ rfl hc rfl
    (by decide) (by decide) (by decide) (by decide) (Rv32i.wordAt_storeBytes ..) ?_
  refine goes_addi (b := v) (a := v) hin₃ rfl hc rfl (BitVec.add_zero v) ?_
  -- the register of the caller is still in the frame
  refine goes_loadWord (b := 0x7bf) (a := 0x7db) (i := 0x7db) (x := h.x 8) hin₃ rfl hc rfl
    (by decide) (by decide) (by decide) (by decide) ?_ ?_
  · rw [Rv32i.wordAt_storeBytes_of_apart _ _ (by decide),
      Rv32i.wordAt_storeBytes_of_apart _ _ (by decide), Rv32i.wordAt_storeBytes]
  refine goes_addi (b := 0x7bf) (a := 0x7df) hin₃ rfl hc rfl (by decide) ?_
  refine goes_ret hin₃ rfl hc h1 ?_
  refine goes_of ⟨_, _, rfl, rfl, h2.symm, rfl, hin₃, fun a ha => ?_⟩
  rw [Rv32i.wordAt_storeBytes_of_apart _ _ (by omega),
    Rv32i.wordAt_storeBytes_of_apart _ _ (by omega),
    Rv32i.wordAt_storeBytes_of_apart _ _ (by omega)]

/-- In front of `main`, and `main` up to the first call. -/
theorem withfunc_front (hin : withfuncListing.In m) (hc : c.halted = false) :
    Goes (fun h' => ∃ h₁ m₁, h' = put h₁ 4 m₁ c ∧ h₁.x 1 = BitVec.ofNat 32 (4 * 23) ∧
        h₁.x 2 = 0x7df ∧ h₁.x 8 = 0x7ff ∧ withfuncListing.In m₁ ∧
        Rv32i.wordAt m₁ 0x7fb = BitVec.ofNat 32 (4 * 2)) (put h 0 m c) := by
  refine goes_addi (a := 0x7ff) hin rfl hc h.zero rfl ?_
  refine goes_jal (j := 18) hin rfl hc (by decide) rfl ?_
  refine goes_addi (b := 0x7ff) (a := 0x7df) hin rfl hc rfl (by decide) ?_
  refine goes_storeWord (b := 0x7df) (a := 0x7fb) (i := 0x7fb) (x := BitVec.ofNat 32 (4 * 2)) hin
    rfl hc rfl (by decide) (by decide) (by decide) (by decide) rfl ?_
  have hin₁ := hin.storeBytes (a := 0x7fb) (by decide) (BitVec.ofNat 32 (4 * 2))
  refine goes_storeWord (b := 0x7df) (a := 0x7f7) (i := 0x7f7) (x := h.x 8) hin₁ rfl hc rfl
    (by decide) (by decide) (by decide) (by decide) rfl ?_
  have hin₂ := hin₁.storeBytes (a := 0x7f7) (by decide) (h.x 8)
  refine goes_addi (b := 0x7df) (a := 0x7ff) hin₂ rfl hc rfl (by decide) ?_
  refine goes_jal (j := 4) hin₂ rfl hc (by decide) rfl ?_
  refine goes_of ⟨_, _, rfl, rfl, rfl, rfl, hin₂, ?_⟩
  rw [Rv32i.wordAt_storeBytes_of_apart _ _ (by decide), Rv32i.wordAt_storeBytes]

/-- Between the calls: the first number is kept in the frame. -/
theorem withfunc_between (hin : withfuncListing.In m) (hc : c.halted = false)
    (h8 : h.x 8 = 0x7ff) :
    Goes (fun h' => ∃ h₁ m₁, h' = put h₁ 4 m₁ c ∧ h₁.x 1 = BitVec.ofNat 32 (4 * 25) ∧
        h₁.x 2 = h.x 2 ∧ h₁.x 8 = 0x7ff ∧ withfuncListing.In m₁ ∧
        Rv32i.wordAt m₁ 0x7fb = Rv32i.wordAt m 0x7fb ∧ Rv32i.wordAt m₁ 0x7eb = h.x 10)
      (put h 23 m c) := by
  refine goes_storeWord (a := 0x7eb) (i := 0x7eb) (x := h.x 10) hin rfl hc h8 (by decide)
    (by decide) (by decide) (by decide) rfl ?_
  have hin₁ := hin.storeBytes (a := 0x7eb) (by decide) (h.x 10)
  refine goes_jal (j := 4) hin₁ rfl hc (by decide) rfl ?_
  refine goes_of ⟨_, _, rfl, rfl, rfl, h8, hin₁, ?_, Rv32i.wordAt_storeBytes ..⟩
  rw [Rv32i.wordAt_storeBytes_of_apart _ _ (by decide)]

/-- Behind the calls. -/
theorem withfunc_end (hin : withfuncListing.In m) (hc : c.halted = false) (h2 : h.x 2 = 0x7df)
    (h8 : h.x 8 = 0x7ff) (hlink : Rv32i.wordAt m 0x7fb = BitVec.ofNat 32 (4 * 2)) {x : BitVec 32}
    (hx : Rv32i.wordAt m 0x7eb = x) :
    Goes (fun h' => h'.env.halted = true ∧ h'.env.stdout =
        c.stdout ++ formatInt (x + h.x 10) ++ "CPU Halt Requested\n".toList) (put h 25 m c) := by
  refine goes_storeWord (a := 0x7e7) (i := 0x7e7) (x := h.x 10) hin rfl hc h8 (by decide)
    (by decide) (by decide) (by decide) rfl ?_
  have hin₁ := hin.storeBytes (a := 0x7e7) (by decide) (h.x 10)
  have hkept : ∀ a, 0x7eb ≤ a → Rv32i.wordAt (Rv32i.storeBytes .word 0x7e7 (h.x 10) m) a =
      Rv32i.wordAt m a := fun a ha => Rv32i.wordAt_storeBytes_of_apart _ _ (by omega)
  refine goes_lui hin₁ rfl hc (by decide) ?_
  refine goes_addi (b := 0x1000) (a := virWInt) hin₁ rfl hc rfl (by decide) ?_
  refine goes_loadWord (a := 0x7eb) (i := 0x7eb) (x := x) hin₁ rfl hc h8 (by decide) (by decide)
    (by decide) (by decide) ((hkept _ (by decide)).trans hx) ?_
  refine goes_loadWord (a := 0x7e7) (i := 0x7e7) (x := h.x 10) hin₁ rfl hc h8 (by decide)
    (by decide) (by decide) (by decide) (Rv32i.wordAt_storeBytes ..) ?_
  refine goes_reg (x := x + h.x 10) hin₁ rfl hc rfl rfl ?_
  refine goes_routine (b := virWInt) (a := virWInt) hin₁ rfl hc rfl (by decide) (by decide) rfl
    hc ?_
  refine goes_addi (a := 0) hin₁ rfl hc h.zero rfl ?_
  refine goes_addi (b := 0) (a := 0) hin₁ rfl hc rfl rfl ?_
  refine goes_loadWord (a := 0x7fb) (i := 0x7fb) hin₁ rfl hc h2 (by decide) (by decide)
    (by decide) (by decide) ((hkept _ (by decide)).trans hlink) ?_
  refine goes_loadWord (a := 0x7f7) (i := 0x7f7) hin₁ rfl hc h2 (by decide) (by decide)
    (by decide) (by decide) rfl ?_
  refine goes_addi (a := 0x7ff) hin₁ rfl hc h2 (by decide) ?_
  refine goes_ret (j := 2) hin₁ rfl hc rfl ?_
  refine goes_lui hin₁ rfl hc (by decide) ?_
  exact goes_halt (b := 0x1000) hin₁ rfl hc rfl (by decide) ⟨rfl, rfl⟩

theorem withfunc_goes (hin : withfuncListing.In m) (hc : c.halted = false) :
    Goes (fun h' => h'.env.halted = true ∧ h'.env.stdout =
        c.stdout ++ formatInt (sumOfTwo virRInt virRInt c.stdin) ++ "CPU Halt Requested\n".toList)
      (put h 0 m c) := by
  refine goes_trans (withfunc_front hin hc) fun h' hfront => ?_
  obtain ⟨h₁, m₁, rfl, h₁1, h₁2, h₁8, hin₁, hlink₁⟩ := hfront
  refine goes_trans (read_goes hin₁ hc h₁2 h₁1) fun h' hread => ?_
  obtain ⟨h₂, m₂, rfl, hfirst, h₂2, h₂8, hin₂, hkept₂⟩ := hread
  refine goes_trans (withfunc_between (c := { c with stdin := (readNumber c.stdin).2 }) hin₂ hc
    (h₂8.trans h₁8)) fun h' hbetween => ?_
  obtain ⟨h₃, m₃, rfl, h₃1, h₃2, h₃8, hin₃, hlink₃, hsaved⟩ := hbetween
  have h₃2' : h₃.x 2 = 0x7df := h₃2.trans (h₂2.trans h₁2)
  refine goes_trans (read_goes (c := { c with stdin := (readNumber c.stdin).2 }) hin₃ hc h₃2' h₃1)
    fun h' hread => ?_
  obtain ⟨h₄, m₄, rfl, hsecond, h₄2, h₄8, hin₄, hkept₄⟩ := hread
  have hlink₄ : Rv32i.wordAt m₄ 0x7fb = BitVec.ofNat 32 (4 * 2) := by
    rw [hkept₄ _ (by decide), hlink₃, hkept₂ _ (by decide), hlink₁]
  have hfirst₄ : Rv32i.wordAt m₄ 0x7eb = (readNumber c.stdin).1.getD virRInt := by
    rw [hkept₄ _ (by decide), hsaved, hfirst]
  have hend := withfunc_end (c := { c with stdin := (readNumber (readNumber c.stdin).2).2 }) hin₄
    hc (h₄2.trans h₃2') (h₄8.trans h₃8) hlink₄ hfirst₄
  rw [hsecond] at hend
  exact hend

end Withfunc

/-! ## 5. The two against each other -/

theorem formatInt_injective : Function.Injective formatInt := fun _ _ h =>
  BitVec.eq_of_toInt_eq (itoa_injective h)

/-- **Both images print the sum of two numbers, and they print the same exactly if there is a
    first number**: a register that is not read into holds 0 in one and an address in the other. -/
theorem add_images_agree_iff (memory memory' : Nat → BitVec 8) (stdin : List Char) :
    ∃ n n', (vmAt memory addImage stdin n).halted = true ∧
      (vmAt memory' withfuncImage stdin n').halted = true ∧
      (vmAt memory addImage stdin n).stdout =
        formatInt (sumOfTwo 0 virRInt stdin) ++ "CPU Halt Requested\n".toList ∧
      (vmAt memory' withfuncImage stdin n').stdout =
        formatInt (sumOfTwo virRInt virRInt stdin) ++ "CPU Halt Requested\n".toList ∧
      ((vmAt memory addImage stdin n).stdout = (vmAt memory' withfuncImage stdin n').stdout ↔
        (readNumber stdin).1.isSome = true) := by
  have hin : addListing.In (loaded memory addImage) := image_in addListing _ memory
  have hin' : withfuncListing.In (loaded memory' withfuncImage) :=
    image_in withfuncListing _ memory'
  have hadd := halts_of_goes (add_goes (h := bootHart memory addImage stdin)
    (c := ⟨stdin, [], false⟩) hin rfl rfl)
  have hfunc := halts_of_goes (withfunc_goes (h := bootHart memory' withfuncImage stdin)
    (c := ⟨stdin, [], false⟩) hin' rfl)
  obtain ⟨n, hstop, hout⟩ := hadd
  obtain ⟨n', hstop', hout'⟩ := hfunc
  rw [List.nil_append] at hout hout'
  refine ⟨n, n', hstop, hstop', hout, hout', ?_⟩
  rw [hout, hout', List.append_cancel_right_eq, formatInt_injective.eq_iff, sumOfTwo, sumOfTwo,
    BitVec.add_left_inj]
  cases (readNumber stdin).1 with
  | none => decide
  | some v => simp

end SysProg.Vm
