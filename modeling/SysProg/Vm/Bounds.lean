/-
  File:      SysProg/Vm/Bounds.lean
  Subject:   WHICH RUNS STAY WITHIN THE 65536 BYTES OF `memory`.

  Addresses are cut to 16 bits and then extended by up to three bytes, and the
  loader does not count. `Inside` says that every byte index touched so far is
  an index of the array. Each kind of access has its exact condition:

  * `boot_inside` -- the image has at most 65536 bytes;
  * `memRead_inside` -- the last byte read is below 65536;
  * `memWrite_inside` -- the address is at most 65532, whatever the width:
    the second loop always reaches byte `address + 3`.

  * `bounded_iff` -- a run stays inside exactly if the image fits and every
    iteration meets `Within`;
  * `store_outside` -- a store of one byte at 0xFFFF clears byte 65538.
-/
import SysProg.Vm.Frame

namespace SysProg.Vm

open Lib

/-! ## 1. Accesses -/

/-- Every byte index touched so far is an index of the array. -/
def Inside (s : Machine) : Prop := ∀ k ∈ s.touched, k < memoryMax

instance decidableInside (s : Machine) : Decidable (Inside s) :=
  inferInstanceAs (Decidable (∀ k ∈ s.touched, k < memoryMax))

theorem inside_congr {s s' : Machine} (h : s'.touched = s.touched) : Inside s' ↔ Inside s := by
  unfold Inside
  rw [h]

theorem inside_append {s s' : Machine} {l : List Nat} (h : s'.touched = s.touched ++ l) :
    Inside s' ↔ Inside s ∧ ∀ k ∈ l, k < memoryMax := by
  unfold Inside
  rw [h]
  exact List.forall_mem_append

/-- The bytes from `a` on, `n` of them, lie in the array exactly if the last one does. -/
theorem range'_inside {a n : Nat} (hn : 0 < n) :
    (∀ k ∈ (List.range' 0 n).map (a + ·), k < memoryMax) ↔ a + n ≤ memoryMax := by
  simp only [List.mem_map, List.mem_range'_1, forall_exists_index, and_imp]
  constructor
  · intro h
    have := h (a + (n - 1)) (n - 1) (Nat.zero_le _) (by omega) rfl
    omega
  · rintro h k i - hi rfl
    omega

theorem memRead_inside (s : Machine) (address : BitVec 16) {byteLen : Nat} (hn : 0 < byteLen) :
    Inside (memRead s address byteLen).2 ↔ Inside s ∧ address.toNat + byteLen ≤ memoryMax := by
  have ht : (memRead s address byteLen).2.touched
      = s.touched ++ (List.range byteLen).reverse.map (address.toNat + ·) := by
    rw [memRead_snd]
  rw [inside_append ht, ← range'_inside hn, ← List.range_eq_range']
  simp only [List.map_reverse, List.mem_reverse]

/-- Whatever the width, the byte at `address + 3` is touched, and none behind it. -/
theorem memWrite_inside (s : Machine) (address : BitVec 16) (data : BitVec 32) {byteLen : Nat}
    (hn : 0 < byteLen) (hn' : byteLen ≤ 4) :
    Inside (memWrite s address data byteLen) ↔ Inside s ∧ address.toNat + 4 ≤ memoryMax := by
  have ht := memWrite_touched s address data byteLen
  rw [List.append_assoc] at ht
  rw [inside_append ht, List.forall_mem_append, range'_inside hn]
  by_cases h4 : byteLen < 4
  · rw [if_pos h4, range'_inside hn]
    have e : address.toNat + (4 - byteLen) + byteLen = address.toNat + 4 := by omega
    rw [e]
    constructor
    · intro h
      obtain ⟨hs, -, ha⟩ := h
      exact ⟨hs, ha⟩
    · intro h
      obtain ⟨hs, ha⟩ := h
      exact ⟨hs, by omega, ha⟩
  · rw [if_neg h4]
    have e : byteLen = 4 := by omega
    subst e
    simp only [List.not_mem_nil, false_implies, implies_true, and_true]

theorem loadImage_touched (image : List (BitVec 8)) (count : Nat) (s : Machine) :
    (loadImage count image s).touched = s.touched ++ List.range' count image.length := by
  induction image generalizing count s with
  | nil => exact (List.append_nil _).symm
  | cons b bs ih =>
      rw [loadImage, ih, Machine.poke_touched, List.append_assoc]
      rfl

/-- **The image is loaded into the array exactly if it fits.** -/
theorem boot_inside (memory : Nat → BitVec 8) (image : List (BitVec 8)) (stdin : List Char) :
    Inside (boot memory image stdin) ↔ image.length ≤ memoryMax := by
  have ht : (boot memory image stdin).touched = List.range' 0 image.length :=
    loadImage_touched image 0 _
  unfold Inside
  rw [ht]
  simp only [List.mem_range'_1]
  constructor
  · intro h
    by_contra hl
    exact absurd (h memoryMax ⟨Nat.zero_le _, by omega⟩) (Nat.lt_irrefl _)
  · intro h k h'
    obtain ⟨-, hk⟩ := h'
    omega

/-! ## 2. The condition of one iteration -/

/-- The width of a load; `none` if `func3` has no case. -/
def loadWidth (f : BitVec 3) : Option Nat :=
  if f = lbFunc3 then some 1
  else if f = lhFunc3 then some 2
  else if f = lwFunc3 then some 4
  else if f = lbuFunc3 then some 1
  else if f = lhuFunc3 then some 2
  else none

/-- The byte index 32-bit address arithmetic ends at. -/
def byteIndex (address : BitVec 32) : Nat := (address.setWidth 16).toNat

/-- The load of a word lies in the array. -/
def LoadWithin (inst : BitVec 32) (s : Machine) : Prop :=
  loadAddress inst s ∉ loadRoutines →
    ∀ n ∈ loadWidth (func3 inst), byteIndex (loadAddress inst s) + n ≤ memoryMax

/-- The four bytes at the address of a store lie in the array. -/
def StoreWithin (inst : BitVec 32) (s : Machine) : Prop :=
  storeAddress inst s ∉ storeRoutines → func3 inst ∈ [sbFunc3, shFunc3, swFunc3] →
    byteIndex (storeAddress inst s) + 4 ≤ memoryMax

/-- What an iteration must meet to stay inside: the word it fetches lies in the array, and so
    does what the word loads or stores. -/
def Within (s : Machine) : Prop :=
  s.halted = false →
    byteIndex s.pc + 4 ≤ memoryMax ∧
    (opcode (word s) = some .opIMem → LoadWithin (word s) s) ∧
    (opcode (word s) = some .opS → StoreWithin (word s) s)

/-! ## 3. The cases of the switch -/

section Cases

variable (inst : BitVec 32) (s : Machine)

theorem touched_ite {c : Prop} [Decidable c] {s s₁ s₂ : Machine} (h₁ : s₁.touched = s.touched)
    (h₂ : s₂.touched = s.touched) : (if c then s₁ else s₂).touched = s.touched :=
  iteInduction (motive := fun m : Machine => m.touched = s.touched) (fun _ => h₁) fun _ => h₂

theorem execShiftRight_touched : (execShiftRight inst s).touched = s.touched :=
  touched_ite (regWrite_touched _ _ _) (touched_ite (regWrite_touched _ _ _) rfl)

theorem execR_touched : (execR inst s).touched = s.touched := by
  show Machine.touched (Machine.advance _) = s.touched
  rw [Machine.advance_touched]
  refine touched_ite (touched_ite (regWrite_touched _ _ _)
    (touched_ite (regWrite_touched _ _ _) rfl)) ?_
  refine touched_ite (regWrite_touched _ _ _) ?_
  refine touched_ite (regWrite_touched _ _ _) ?_
  refine touched_ite (regWrite_touched _ _ _) ?_
  refine touched_ite (regWrite_touched _ _ _) ?_
  refine touched_ite ((regWrite_touched _ _ _).trans (execShiftRight_touched inst s)) ?_
  refine touched_ite (regWrite_touched _ _ _) ?_
  exact touched_ite (regWrite_touched _ _ _) rfl

theorem execI_touched : (execI inst s).touched = s.touched := by
  show Machine.touched (Machine.advance _) = s.touched
  rw [Machine.advance_touched]
  refine touched_ite (regWrite_touched _ _ _) ?_
  refine touched_ite (regWrite_touched _ _ _) ?_
  refine touched_ite (regWrite_touched _ _ _) ?_
  refine touched_ite (regWrite_touched _ _ _) ?_
  refine touched_ite (regWrite_touched _ _ _) ?_
  exact touched_ite (regWrite_touched _ _ _) rfl

theorem execSb_touched : (execSb inst s).touched = s.touched := by
  unfold execSb
  split <;> rfl

theorem readInt_touched : (readInt inst s).touched = s.touched := by
  refine touched_ite ?_ rfl
  dsimp only
  split
  · exact scanfInt_touched s
  · exact scanfInt_touched s

theorem loadBytes_inside {byteLen : Nat} (hn : 0 < byteLen) (conv : BitVec 32 → BitVec 32) :
    Inside (loadBytes inst s byteLen conv)
      ↔ Inside s ∧ byteIndex (loadAddress inst s) + byteLen ≤ memoryMax :=
  (inside_congr (regWrite_touched _ _ _)).trans (memRead_inside s _ hn)

/-- The loads proper, by their width. -/
theorem load_inside : Inside (load inst s)
    ↔ Inside s ∧ ∀ n ∈ loadWidth (func3 inst), byteIndex (loadAddress inst s) + n ≤ memoryMax := by
  unfold load loadWidth
  have hn := fun (n : Nat) (hn : 0 < n) (conv : BitVec 32 → BitVec 32) =>
    loadBytes_inside inst s hn conv
  split
  · simpa using hn 1 (by decide) _
  split
  · simpa using hn 2 (by decide) _
  split
  · simpa using hn 4 (by decide) _
  split
  · simpa using hn 1 (by decide) _
  split
  · simpa using hn 2 (by decide) _
  · simp

theorem execIMem_inside : Inside (execIMem inst s) ↔ Inside s ∧ LoadWithin inst s := by
  unfold LoadWithin
  by_cases hv : loadAddress inst s ∈ loadRoutines
  · have ht : (execIMem inst s).touched = s.touched := by
      unfold execIMem
      rw [Machine.advance_touched]
      rcases List.mem_pair.mp hv with h | h
      · rw [if_pos h, regWrite_touched, getchar_touched]
      · rw [if_neg (by rw [h]; decide), if_pos h, readInt_touched]
    rw [inside_congr ht]
    exact ⟨fun h => ⟨h, fun hn => absurd hv hn⟩, fun h => h.1⟩
  · obtain ⟨h1, h2⟩ : loadAddress inst s ≠ virRChar ∧ loadAddress inst s ≠ virRInt :=
      not_or.mp fun h => hv (List.mem_pair.mpr h)
    have ht : (execIMem inst s).touched = (load inst s).touched := by
      unfold execIMem
      rw [Machine.advance_touched, if_neg h1, if_neg h2]
    rw [inside_congr ht, load_inside]
    exact ⟨fun h => ⟨h.1, fun _ => h.2⟩, fun h => ⟨h.1, h.2 hv⟩⟩

/-- The stores proper, whatever their width. -/
theorem store_inside : Inside (store inst s)
    ↔ Inside s ∧ (func3 inst ∈ [sbFunc3, shFunc3, swFunc3] →
        byteIndex (storeAddress inst s) + 4 ≤ memoryMax) := by
  have hw : ∀ n, 0 < n → n ≤ 4 → func3 inst ∈ [sbFunc3, shFunc3, swFunc3] →
      (Inside (memWrite s ((storeAddress inst s).setWidth 16) (s.reg (rs2 inst)) n)
        ↔ Inside s ∧ (func3 inst ∈ [sbFunc3, shFunc3, swFunc3] →
            byteIndex (storeAddress inst s) + 4 ≤ memoryMax)) := by
    intro n hn hn' hf
    refine (memWrite_inside s _ _ hn hn').trans ?_
    exact ⟨fun h => ⟨h.1, fun _ => h.2⟩, fun h => ⟨h.1, h.2 hf⟩⟩
  unfold store
  dsimp only
  split
  · rename_i h
    exact hw 1 (by decide) (by decide) (by simp [h])
  split
  · rename_i h
    exact hw 2 (by decide) (by decide) (by simp [h])
  split
  · rename_i h
    exact hw 4 (by decide) (by decide) (by simp [h])
  · rename_i h1 h2 h3
    have hno : func3 inst ∉ [sbFunc3, shFunc3, swFunc3] := by simp [h1, h2, h3]
    exact ⟨fun h => ⟨h, fun hf => absurd hf hno⟩, fun h => h.1⟩

/-- A routine touches at most the one byte of a dump, and that is always in the array. -/
theorem execS_routine_inside (hv : storeAddress inst s ∈ storeRoutines) :
    Inside (execS inst s) ↔ Inside s := by
  have hd : Inside (memRead s ((s.reg (rs2 inst)).setWidth 16) 1).2 ↔ Inside s := by
    rw [memRead_inside s _ (by decide)]
    have hlt := ((s.reg (rs2 inst)).setWidth 16).isLt
    exact ⟨fun h => h.1, fun h => ⟨h, hlt⟩⟩
  have hite : ∀ {c : Prop} [Decidable c] {s₁ s₂ : Machine}, (Inside s₁ ↔ Inside s) →
      (¬c → (Inside s₂ ↔ Inside s)) → (Inside (if c then s₁ else s₂) ↔ Inside s) :=
    fun h₁ h₂ => iteInduction (motive := fun m => Inside m ↔ Inside s) (fun _ => h₁) h₂
  refine hite (inside_congr rfl) fun h1 => ?_
  refine (inside_congr (Machine.advance_touched _)).trans ?_
  refine hite (inside_congr rfl) fun h2 => ?_
  refine hite (inside_congr rfl) fun h3 => ?_
  refine hite (inside_congr rfl) fun h4 => ?_
  refine hite (inside_congr rfl) fun h5 => ?_
  refine hite (inside_congr rfl) fun h6 => ?_
  refine hite ((inside_congr (Machine.print_touched _ _)).trans hd) fun h7 => absurd hv ?_
  simp only [storeRoutines, List.mem_cons, List.not_mem_nil, h1, h2, h3, h4, h5, h6, h7, or_self,
    not_false_eq_true]

theorem execS_inside : Inside (execS inst s) ↔ Inside s ∧ StoreWithin inst s := by
  unfold StoreWithin
  by_cases hv : storeAddress inst s ∈ storeRoutines
  · rw [execS_routine_inside inst s hv]
    exact ⟨fun h => ⟨h, fun hn => absurd hv hn⟩, fun h => h.1⟩
  · rw [execS_store inst s hv, inside_congr (Machine.advance_touched _), store_inside]
    exact ⟨fun h => ⟨h.1, fun _ => h.2⟩, fun h => ⟨h.1, h.2 hv⟩⟩

/-- Only loads and stores touch memory. -/
theorem execute_inside : Inside (execute inst s)
    ↔ Inside s ∧ (opcode inst = some .opIMem → LoadWithin inst s)
        ∧ (opcode inst = some .opS → StoreWithin inst s) := by
  have hkeep : ∀ {m : Machine} {o : Option Opcode}, opcode inst = o → o ≠ some .opIMem →
      o ≠ some .opS → m.touched = s.touched →
      (Inside m ↔ Inside s ∧ (o = some .opIMem → LoadWithin inst s)
        ∧ (o = some .opS → StoreWithin inst s)) := by
    intro m o _ h1 h2 ht
    rw [inside_congr ht]
    exact ⟨fun h => ⟨h, fun e => absurd e h1, fun e => absurd e h2⟩, fun h => h.1⟩
  unfold execute
  cases ho : opcode inst with
  | none => exact hkeep ho (by decide) (by decide) rfl
  | some o =>
      cases o with
      | opR => exact hkeep ho (by decide) (by decide) (execR_touched inst s)
      | opI => exact hkeep ho (by decide) (by decide) (execI_touched inst s)
      | opIMem =>
          refine (execIMem_inside inst s).trans ?_
          exact ⟨fun h => ⟨h.1, fun _ => h.2, fun e => by cases e⟩, fun h => ⟨h.1, h.2.1 rfl⟩⟩
      | opIJmp => exact hkeep ho (by decide) (by decide) (regWrite_touched _ _ _)
      | opU => exact hkeep ho (by decide) (by decide) (regWrite_touched _ _ _)
      | opS =>
          refine (execS_inside inst s).trans ?_
          exact ⟨fun h => ⟨h.1, (fun e => by cases e), fun _ => h.2⟩, fun h => ⟨h.1, h.2.2 rfl⟩⟩
      | opSb => exact hkeep ho (by decide) (by decide) (execSb_touched inst s)
      | opUj => exact hkeep ho (by decide) (by decide) (regWrite_touched _ _ _)

end Cases

/-! ## 4. Runs -/

theorem fetch_inside (s : Machine) :
    Inside (fetch s).2 ↔ Inside s ∧ byteIndex s.pc + 4 ≤ memoryMax :=
  memRead_inside s _ (by decide)

/-- **One iteration stays inside exactly if it meets `Within`.** -/
theorem step_inside {s : Machine} (hs : Inside s) : Inside (step s) ↔ Within s := by
  unfold step Within
  split
  · rename_i hh
    exact ⟨fun _ h => absurd hh (by rw [h]; decide), fun _ => hs⟩
  · rename_i hh
    have hl : LoadWithin (word s) (fetch s).2 ↔ LoadWithin (word s) s := by
      unfold LoadWithin loadAddress
      rw [fetch_reg]
    have hst : StoreWithin (word s) (fetch s).2 ↔ StoreWithin (word s) s := by
      unfold StoreWithin storeAddress
      rw [fetch_reg]
    rw [execute_inside, fetch_inside, hl, hst]
    exact ⟨fun h _ => ⟨h.1.2, h.2⟩, fun h => ⟨⟨hs, (h (by simpa using hh)).1⟩,
      (h (by simpa using hh)).2⟩⟩

/-- **A run touches only the 65536 bytes exactly if the image fits and every iteration meets
    `Within`.** -/
theorem bounded_iff (memory : Nat → BitVec 8) (image : List (BitVec 8)) (stdin : List Char)
    (is : List Unit) :
    Always stepRun Inside (boot memory image stdin) is
      ↔ image.length ≤ memoryMax
        ∧ AllSteps stepRun (fun s _ => Within s) (boot memory image stdin) is := by
  have hiff : Inside (boot memory image stdin) →
      (Always stepRun Inside (boot memory image stdin) is
        ↔ AllSteps stepRun (fun s _ => Within s) (boot memory image stdin) is) := fun h =>
    always_iff_allSteps (I := fun _ => True) (N := fun _ _ => True) (fun _ _ _ _ => trivial)
      (fun s _ _ _ hs => step_inside hs) is trivial h (allSteps_of_forall (fun _ _ => trivial) is)
  rw [← boot_inside memory image stdin]
  constructor
  · intro h
    have h0 : Inside (boot memory image stdin) := always_first is h
    exact ⟨h0, (hiff h0).mp h⟩
  · intro h
    obtain ⟨h0, h⟩ := h
    exact (hiff h0).mpr h

/-- `SB x0, -1(x0)`, from zeroed memory: the second loop of `mem_write` clears byte 65538. -/
theorem store_outside :
    ¬ ∀ (memory : Nat → BitVec 8) (image : List (BitVec 8)) (stdin : List Char) (is : List Unit),
      Always stepRun Inside (boot memory image stdin) is := by
  intro h
  have h1 := always_last _ (h (fun _ => 0) [0xA3, 0x0F, 0x00, 0xFE] [] [()])
  exact absurd h1 (by decide +kernel)

end SysProg.Vm
