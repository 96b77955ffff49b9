/-
  File:      SysProg/Vm/Logic.lean
  Subject:   RULES FOR PROGRAMS ON THE VM: what a program in memory gets to,
             one instruction at a time.

  A listing is a list of words with the instruction each of them encodes.
  `Goes Q h` says of the VM itself that from any state that shows `h` it gets
  to one that shows a hart with `Q`, and so that it gets there at all. Every
  rule goes back to the case of the switch it is about (`shows_case_iff`,
  Refine.lean); an instruction that the VM does not always execute as it
  should has the condition for it as a premise, and one that goes to memory
  that it stays in the array.

  * `goes_of`, `goes_trans` -- nothing to do, and one piece after another;
  * `goes_line` -- the word the program counter is at;
  * `goes_reg` to `goes_storeWord` -- a rule for each kind of instruction.
-/
import SysProg.Vm.Refine

namespace SysProg.Vm

open Lib

open Rv32i (Hart Instr)

/-! ## 1. Listings -/

/-- Words, each with the instruction it encodes. -/
structure Listing where
  lines : List (BitVec 32 × Instr)
  decoded : ∀ l ∈ lines, Rv32i.decode l.1 = some l.2
  fits : 4 * lines.length ≤ memoryMax

/-- The listing stands in memory, from address 0 on. -/
def Listing.In (code : Listing) (m : Nat → BitVec 8) : Prop :=
  ∀ k w i, code.lines[k]? = some (w, i) → Rv32i.wordAt m (4 * k) = w

/-- A word behind the listing may be stored. -/
theorem Listing.In.storeBytes {code : Listing} {m : Nat → BitVec 8} (hin : code.In m) {a : Nat}
    (ha : 4 * code.lines.length ≤ a) (v : BitVec 32) :
    code.In (Rv32i.storeBytes .word a v m) := by
  intro k w i hl
  have hk : k < code.lines.length := (List.getElem?_eq_some_iff.mp hl).1
  rw [Rv32i.wordAt_storeBytes_of_apart m v (by omega)]
  exact hin k w i hl

/-- A hart at line `k`, with this memory and this console. -/
def put (h : Hart Console) (k : Nat) (m : Nat → BitVec 8) (c : Console) : Hart Console :=
  { h with pc := BitVec.ofNat 32 (4 * k), memory := m, env := c }

/-! ## 2. Getting somewhere -/

/-- The VM gets from `h` to a hart with `Q`. -/
def Goes (Q : Hart Console → Prop) (h : Hart Console) : Prop :=
  ∀ s, Shows s h → ∃ n h', Shows (step^[n] s) h' ∧ Q h'

section Rules

variable {Q R : Hart Console → Prop} {h : Hart Console} {code : Listing} {k j : Nat}
  {m : Nat → BitVec 8} {c : Console} {w : BitVec 32} {rd rs1 rs2 : Fin 32} {v a b x : BitVec 32}

theorem goes_of (hq : Q h) : Goes Q h := fun _ hs => ⟨0, h, hs, hq⟩

theorem goes_trans (hq : Goes Q h) (hr : ∀ h', Q h' → Goes R h') : Goes R h := by
  intro s hs
  obtain ⟨n, h₁, hs₁, hq₁⟩ := hq s hs
  obtain ⟨n', h₂, hs₂, hr₂⟩ := hr h₁ hq₁ _ hs₁
  refine ⟨n' + n, h₂, ?_, hr₂⟩
  rw [Function.iterate_add_apply]
  exact hs₂

/-- The program counter is at a line of the listing, and so in the array. -/
theorem put_index {i : Instr} (hl : code.lines[k]? = some (w, i)) :
    platform.index (put h k m c).pc = 4 * k ∧ 4 * k + 4 ≤ memoryMax := by
  have hk : k < code.lines.length := (List.getElem?_eq_some_iff.mp hl).1
  have hfits := code.fits
  show (BitVec.ofNat 32 (4 * k)).toNat % memoryMax = 4 * k ∧ 4 * k + 4 ≤ memoryMax
  rw [BitVec.toNat_ofNat]
  unfold memoryMax at *
  omega

theorem put_word (hin : code.In m) {i : Instr} (hl : code.lines[k]? = some (w, i)) :
    (put h k m c).word platform = w := by
  obtain ⟨hindex, hle⟩ := put_index (h := h) (m := m) (c := c) hl
  rw [Hart.word, Rv32i.Platform.wordAt_bytesAt _ (platform_inRow (hindex ▸ hle)), hindex]
  exact hin k w i hl

/-- The address of a load or a store, in the registers of the VM. -/
theorem put_address {s : Machine} (hb : h.x rs1 = b) (ha : b + v = a)
    (hs : Shows s (put h k m c)) : s.reg rs1.castSucc + v = a := by
  rw [hs.x, show (put h k m c).x rs1 = b from hb, ha]

/-- Not a shift by a register. -/
def Plain : Instr → Prop
  | .reg op _ _ _ => op.isShift = false
  | _ => True

theorem defined_of_plain {s : Machine} {i : Instr} (hi : Rv32i.Decodes (word s) i)
    (hp : Plain i) : Defined s := by
  intro op he hop
  have hreg : some i = some _ :=
    (Rv32i.decode_of_decodes hi).symm.trans (Rv32i.decode_of_decodes (.reg op he))
  cases hreg
  rw [Plain, hop] at hp
  cases hp

/-- **The line the program counter is at**: the VM executes it if the state keeps it. -/
theorem goes_line {i : Instr} (hin : code.In m) (hl : code.lines[k]? = some (w, i))
    (hc : c.halted = false) (hp : Plain i)
    (hkept : ∀ s, Shows s (put h k m c) → Kept s w i ∧ InstrWithin s i)
    (hq : Goes Q ((put h k m c).exec platform i)) : Goes Q (put h k m c) := by
  intro s hs
  have hfetch : platform.index s.pc + 4 ≤ memoryMax := by
    obtain ⟨hindex, hle⟩ := put_index (h := h) (m := m) (c := c) hl
    rw [hs.pc, hindex]
    exact hle
  have hw : word s = w := (word_eq hs hfetch).trans (put_word hin hl)
  have hrun : s.halted = false := (congrArg Console.halted hs.console).trans hc
  have hi : Rv32i.Decodes (word s) i := by
    rw [hw]
    exact Rv32i.decode_eq_some_iff.mp (code.decoded _ (List.mem_of_getElem? hl))
  obtain ⟨hk, hwithin⟩ := hkept s hs
  rw [← hw] at hk
  have hs' := (shows_case_iff hs hrun (defined_of_plain hi hp) hi hwithin).mpr hk
  obtain ⟨n, h', hn, hq'⟩ := hq (step s) hs'
  exact ⟨n + 1, h', hn, hq'⟩

/-! ## 3. A rule for each kind of instruction -/

theorem ofNat_line (k : Nat) : BitVec.ofNat 32 (4 * k) + 4 = BitVec.ofNat 32 (4 * (k + 1)) := by
  rw [Nat.mul_add, BitVec.ofNat_add]
  rfl

theorem put_write_goto (h : Hart Console) (k : Nat) (m : Nat → BitVec 8) (c : Console)
    (r : Fin 32) (v : BitVec 32) (j : Nat) :
    ((put h k m c).write r v).goto (BitVec.ofNat 32 (4 * j)) = put (h.write r v) j m c := by
  unfold put Hart.write
  split <;> rfl

theorem put_write_advance (h : Hart Console) (k : Nat) (m : Nat → BitVec 8) (c : Console)
    (r : Fin 32) (v : BitVec 32) :
    ((put h k m c).write r v).advance = put (h.write r v) (k + 1) m c := by
  have hpc : ((put h k m c).write r v).pc + 4 = BitVec.ofNat 32 (4 * (k + 1)) := by
    rw [Hart.write_pc]
    exact ofNat_line k
  rw [Hart.advance, hpc, put_write_goto]

theorem put_advance (h : Hart Console) (k : Nat) (m : Nat → BitVec 8) (c : Console) :
    (put h k m c).advance = put h (k + 1) m c := by
  have hpc : (put h k m c).pc + 4 = BitVec.ofNat 32 (4 * (k + 1)) := ofNat_line k
  rw [Hart.advance, hpc]
  rfl

theorem goes_reg {op : Rv32i.ROp} (hin : code.In m)
    (hl : code.lines[k]? = some (w, .reg op rd rs1 rs2)) (hc : c.halted = false)
    (hop : op.isShift = false) (hx : op.result (h.x rs1) (h.x rs2) = x)
    (hq : Goes Q (put (h.write rd x) (k + 1) m c)) : Goes Q (put h k m c) := by
  refine goes_line hin hl hc hop (fun s _ => ⟨Or.inr ?_, trivial⟩) ?_
  · cases op <;> trivial
  · rw [← put_write_advance h k, ← hx] at hq
    exact hq

theorem goes_addi (hin : code.In m) (hl : code.lines[k]? = some (w, .imm .addi rd rs1 v))
    (hc : c.halted = false) (hb : h.x rs1 = b) (ha : b + v = a)
    (hq : Goes Q (put (h.write rd a) (k + 1) m c)) : Goes Q (put h k m c) := by
  refine goes_line hin hl hc trivial (fun s _ => ⟨Or.inr trivial, trivial⟩) ?_
  rw [← put_write_advance h k, ← ha, ← hb] at hq
  exact hq

theorem goes_lui (hin : code.In m) (hl : code.lines[k]? = some (w, .lui rd v))
    (hc : c.halted = false) (hu : UpperKept (w.extractLsb' 12 20))
    (hq : Goes Q (put (h.write rd v) (k + 1) m c)) : Goes Q (put h k m c) := by
  refine goes_line hin hl hc trivial (fun s _ => ⟨Or.inr hu, trivial⟩) ?_
  rw [← put_write_advance h k] at hq
  exact hq

theorem goes_jal (hin : code.In m) (hl : code.lines[k]? = some (w, .jal rd v))
    (hc : c.halted = false) (hj : JumpKept w)
    (ht : BitVec.ofNat 32 (4 * k) + v = BitVec.ofNat 32 (4 * j))
    (hq : Goes Q (put (h.write rd (BitVec.ofNat 32 (4 * (k + 1)))) j m c)) :
    Goes Q (put h k m c) := by
  refine goes_line hin hl hc trivial (fun s _ => ⟨hj, trivial⟩) ?_
  rw [← put_write_goto h k, ← ofNat_line, ← ht] at hq
  exact hq

/-- A return: the link is not written. -/
theorem goes_ret (hin : code.In m) (hl : code.lines[k]? = some (w, .jalr 0 rs1 0#32))
    (hc : c.halted = false) (ht : h.x rs1 = BitVec.ofNat 32 (4 * j))
    (hq : Goes Q (put h j m c)) : Goes Q (put h k m c) := by
  have hbit : (BitVec.ofNat 32 (4 * j)).getLsbD 0 = false := by
    rw [BitVec.getLsbD_ofNat, Nat.testBit_zero]
    simp
    omega
  have heven : (h.x rs1 + 0#32) &&& ~~~1#32 = BitVec.ofNat 32 (4 * j) := by
    rw [ht, and_not_one, BitVec.add_zero, if_neg (Bool.eq_false_iff.mp hbit)]
  refine goes_line hin hl hc trivial (fun s hs => ⟨Or.inl ⟨Or.inl rfl, ?_⟩, trivial⟩) ?_
  · rw [hs.x, show (put h k m c).x rs1 = BitVec.ofNat 32 (4 * j) from ht, BitVec.add_zero]
    exact hbit
  · have hexec : (put h k m c).exec platform (.jalr 0 rs1 0#32) = put h j m c := by
      show ((put h k m c).write 0 _).goto ((h.x rs1 + 0#32) &&& ~~~1#32) = _
      rw [Hart.write_zero, heven]
      rfl
    rw [hexec]
    exact hq

theorem goes_branch {op : Rv32i.BOp} {p : Prop} [Decidable p] (hin : code.In m)
    (hl : code.lines[k]? = some (w, .branch op rs1 rs2 v)) (hc : c.halted = false)
    (hop : ComparedKept op (h.x rs1) (h.x rs2)) (hoff : OffsetKept w)
    (ht : BitVec.ofNat 32 (4 * k) + v = BitVec.ofNat 32 (4 * j))
    (hp : op.taken (h.x rs1) (h.x rs2) = true ↔ p)
    (hq : Goes Q (put h (if p then j else k + 1) m c)) : Goes Q (put h k m c) := by
  refine goes_line hin hl hc trivial (fun s hs => ⟨Or.inl ⟨?_, fun _ => hoff⟩, trivial⟩) ?_
  · rw [hs.x, hs.x]
    exact hop
  · have hexec : (put h k m c).exec platform (.branch op rs1 rs2 v) =
        put h (if p then j else k + 1) m c := by
      show (if op.taken (h.x rs1) (h.x rs2) then (put h k m c).goto (BitVec.ofNat 32 (4 * k) + v)
        else (put h k m c).advance) = _
      rw [ht, put_advance]
      simp only [hp]
      split <;> rfl
    rw [hexec]
    exact hq

/-- A number is read; if there is none, the register keeps its value. -/
theorem goes_readInt {op : Rv32i.LoadOp} (hin : code.In m)
    (hl : code.lines[k]? = some (w, .load op rd rs1 v)) (hc : c.halted = false)
    (hb : h.x rs1 = b) (ha : b + v = virRInt) (hrd : rd.val ≠ 0)
    (hx : (readNumber c.stdin).1.getD (h.x rd) = x)
    (hq : Goes Q (put (h.write rd x) (k + 1) m { c with stdin := (readNumber c.stdin).2 })) :
    Goes Q (put h k m c) := by
  refine goes_line hin hl hc trivial (fun s hs => ⟨fun _ h0 => absurd h0 hrd, fun hno => ?_⟩) ?_
  · exact absurd (put_address hb ha hs ▸ (by decide : virRInt ∈ loadRoutines)) hno
  have hload : platform.load virRInt (put h k m c).env =
      some ((readNumber c.stdin).1, { c with stdin := (readNumber c.stdin).2 }) := rfl
  show Goes Q ((put h k m c).loadFrom platform op rd (h.x rs1 + v))
  rw [hb, ha, Hart.loadFrom, hload]
  rw [← put_write_advance h k, ← hx] at hq
  cases hr : (readNumber c.stdin).1 with
  | none =>
      rw [hr, Option.getD_none] at hq
      rwa [show h.x rd = (put h k m { c with stdin := (readNumber c.stdin).2 }).x rd from rfl,
        Hart.write_self] at hq
  | some x =>
      rw [hr] at hq
      exact hq

/-- A word is loaded. -/
theorem goes_loadWord {i : Nat} (hin : code.In m)
    (hl : code.lines[k]? = some (w, .load .lw rd rs1 v)) (hc : c.halted = false)
    (hb : h.x rs1 = b) (ha : b + v = a) (hr : a ∉ loadRoutines) (hi : a.toNat % memoryMax = i)
    (hle : i + 4 ≤ memoryMax) (hx : Rv32i.wordAt m i = x)
    (hq : Goes Q (put (h.write rd x) (k + 1) m c)) :
    Goes Q (put h k m c) := by
  have hne : a ≠ virRChar ∧ a ≠ virRInt := by
    simpa [loadRoutines] using hr
  have hindex : platform.index a = i := hi
  refine goes_line hin hl hc trivial (fun s hs => ⟨fun e => ?_, fun _ => ?_⟩) ?_
  · rw [put_address hb ha hs] at e
    exact absurd e hne.2
  · rw [put_address hb ha hs, hindex]
    exact hle
  · have hload : platform.load a c = none := by
      show (if a = virRChar then _ else _) = none
      rw [if_neg hne.1, if_neg hne.2]
    have hword : Rv32i.wordAt (platform.bytesAt m a) 0 = x := by
      rw [Rv32i.Platform.wordAt_bytesAt _ (platform_inRow (hindex ▸ hle)), hindex, hx]
    rw [← put_write_advance h k, ← hword] at hq
    show Goes Q ((put h k m c).loadFrom platform .lw rd (h.x rs1 + v))
    rw [hb, ha, Hart.loadFrom, show (put h k m c).env = c from rfl, hload]
    exact hq

/-- A store to a routine that goes on. -/
theorem goes_routine {n : Rv32i.Width} {c' : Console} (hin : code.In m)
    (hl : code.lines[k]? = some (w, .store n rs1 rs2 v)) (hc : c.halted = false)
    (hb : h.x rs1 = b) (ha : b + v = a) (hr : a ∈ storeRoutines)
    (hs : platform.store a (h.x rs2) (put h k m c) = some c')
    (hc' : c'.halted = false) (hq : Goes Q (put h (k + 1) m c')) : Goes Q (put h k m c) := by
  refine goes_line hin hl hc trivial (fun s hs => ⟨Or.inl ?_, fun hno => ?_⟩) ?_
  · rw [put_address hb ha hs]
    exact hr
  · rw [put_address hb ha hs] at hno
    exact absurd hr hno
  · show Goes Q ((put h k m c).storeTo platform n (h.x rs1 + v) (h.x rs2))
    have hgo : ¬ platform.stopped c' = true := Bool.eq_false_iff.mp hc'
    rw [hb, ha, Hart.storeTo, hs]
    dsimp only
    rw [if_neg hgo]
    rw [← put_advance h k] at hq
    exact hq

theorem goes_halt {n : Rv32i.Width} (hin : code.In m)
    (hl : code.lines[k]? = some (w, .store n rs1 rs2 v)) (hc : c.halted = false)
    (hb : h.x rs1 = b) (ha : b + v = virHalt)
    (hq : Q (put h k m { c.print "CPU Halt Requested\n".toList with halted := true })) :
    Goes Q (put h k m c) := by
  refine goes_line hin hl hc trivial (fun s hs => ⟨Or.inl ?_, fun hno => ?_⟩) (goes_of ?_)
  · rw [put_address hb ha hs]
    decide
  · rw [put_address hb ha hs] at hno
    exact absurd (by decide) hno
  · show Q ((put h k m c).storeTo platform n (h.x rs1 + v) (h.x rs2))
    rw [hb, ha]
    exact hq

/-- A word is stored. -/
theorem goes_storeWord {i : Nat} (hin : code.In m)
    (hl : code.lines[k]? = some (w, .store .word rs1 rs2 v)) (hc : c.halted = false)
    (hb : h.x rs1 = b) (ha : b + v = a) (hr : a ∉ storeRoutines) (hi : a.toNat % memoryMax = i)
    (hle : i + 4 ≤ memoryMax) (hx : h.x rs2 = x)
    (hq : Goes Q (put h (k + 1) (Rv32i.storeBytes .word i x m) c)) :
    Goes Q (put h k m c) := by
  have hindex : platform.index a = i := hi
  refine goes_line hin hl hc trivial (fun s hs => ⟨Or.inr trivial, fun _ => ?_⟩) ?_
  · rw [put_address hb ha hs, hindex]
    exact hle
  have hstore : platform.store a (h.x rs2) (put h k m c) = none := by
    simp only [storeRoutines, List.mem_cons, List.not_mem_nil, or_false, not_or] at hr
    obtain ⟨h1, h2, h3, h4, h5, h6, h7⟩ := hr
    simp only [platform, h1, h2, h3, h4, h5, h6, h7, if_false]
  show Goes Q ((put h k m c).storeTo platform .word (h.x rs1 + v) (h.x rs2))
  have hbytes : platform.storeAt .word a x m = Rv32i.storeBytes .word i x m := by
    rw [Rv32i.Platform.storeAt_eq _ _ (platform_inRow (hindex ▸ hle)), hindex]
  rw [← put_advance h k, ← hbytes, ← hx] at hq
  rw [hb, ha, Hart.storeTo, hstore]
  exact hq

end Rules

end SysProg.Vm
