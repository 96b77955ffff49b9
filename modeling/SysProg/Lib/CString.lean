/-
  File:      SysProg/Lib/CString.lean
  Subject:   THE PIECES OF THE C STRING LIBRARY the programs call, over
             `List Char` (a character is a byte; `'\x00'` is NUL).

  * `cstr`, `cutAt` -- the string in a buffer, and the string after
    `s[strcspn(s, ";")] = 0`;
  * `clearString`, `overwrite`, `terminateAt`, `strtokMarks` -- what `memset`,
    `read`, the cut and `strtok` leave in the buffer; none of them but `read`
    puts anything but a NUL into it (`KeepsNul`);
  * `isdigit`, `atoi` -- `strtol` saturates at the bounds of a 64-bit `long`,
    `atoi` keeps the low 32 bits;
  * `itoa` -- `sprintf` with `%d` (`%ld`, `%lld`);
  * `strtok`, `strtokAll` -- the tokens a `strtok` loop delivers.

  The round trips used further up: `atoi_itoa` on the non-negative `int`s,
  `strtokAll_unwords` on single-spaced text.
-/
import Mathlib.Data.List.TakeWhile
import Mathlib.Data.Int.Basic
import Mathlib.Tactic.NormNum

namespace SysProg.Lib

/-! ## 1. Strings in buffers -/

/-- The C string a buffer holds: everything before its first NUL. -/
def cstr (b : List Char) : List Char := b.takeWhile (· ≠ '\x00')

/-- The string after `s[strcspn(s, c)] = 0`. -/
def cutAt (c : Char) (b : List Char) : List Char := (cstr b).takeWhile (· ≠ c)

theorem takeWhile_append_stop {p : Char → Bool} {s r : List Char} {c : Char}
    (hs : ∀ x ∈ s, p x = true) (hc : p c = false) : (s ++ c :: r).takeWhile p = s := by
  rw [List.takeWhile_append_of_pos hs, List.takeWhile_cons, hc]
  simp

theorem takeWhile_of_all {p : Char → Bool} {s : List Char} (hs : ∀ x ∈ s, p x = true) :
    s.takeWhile p = s :=
  List.takeWhile_eq_self_iff.mpr hs

theorem all_ne {c : Char} {s : List Char} (h : c ∉ s) : ∀ x ∈ s, decide (x ≠ c) = true := by
  intro x hx
  have : x ≠ c := fun e => h (e ▸ hx)
  simpa using this

theorem mem_cutAt {c x : Char} {b : List Char} (h : x ∈ cutAt c b) :
    x ≠ c ∧ x ≠ '\x00' ∧ x ∈ b := by
  have h1 : x ∈ cstr b := List.takeWhile_subset _ h
  have h2 := List.mem_takeWhile_imp h
  have h3 := List.mem_takeWhile_imp h1
  simp only [ne_eq, decide_not, Bool.not_eq_eq_eq_not, Bool.not_true, decide_eq_false_iff_not]
    at h2 h3
  exact ⟨h2, h3, List.takeWhile_subset _ h1⟩

/-- A terminated message is cut at its terminator, whatever stands behind it. -/
theorem cutAt_terminated {c : Char} {s r : List Char} (hc : c ∉ s) (h0 : '\x00' ∉ s)
    (hc0 : c ≠ '\x00') : cutAt c (s ++ c :: r) = s := by
  have e : cstr (s ++ c :: r) = s ++ c :: (cstr r) := by
    unfold cstr
    rw [List.takeWhile_append_of_pos (all_ne h0), List.takeWhile_cons]
    simp [hc0]
  unfold cutAt
  rw [e]
  exact takeWhile_append_stop (all_ne hc) (by simp)

/-! ## 2. Buffers changed in place -/

/-- `memset(b, 0, strlen(b))`. -/
def clearString (b : List Char) : List Char :=
  List.replicate (cstr b).length '\x00' ++ b.drop (cstr b).length

/-- What `read` leaves: `bytes` in front, the rest as it was. -/
def overwrite (bytes b : List Char) : List Char := bytes ++ b.drop bytes.length

/-- `b[strcspn(b, c)] = 0`. -/
def terminateAt (c : Char) (b : List Char) : List Char := b.set (cutAt c b).length '\x00'

/-- The NULs of the first `n` calls of `strtok`, on a string with single delimiters between its
    words: each ends its word. -/
def strtokMarks (d : Char) : Nat → List Char → List Char
  | 0, b => b
  | _ + 1, [] => []
  | n + 1, c :: b =>
      if c = '\x00' then c :: b
      else if c = d then '\x00' :: strtokMarks d n b
      else c :: strtokMarks d (n + 1) b

/-- The string a buffer holds once it is cut. -/
theorem cstr_terminateAt (c : Char) (b : List Char) : cstr (terminateAt c b) = cutAt c b := by
  have hno : ∀ x ∈ cutAt c b, decide (x ≠ '\x00') = true := fun x hx => by
    simpa using (mem_cutAt hx).2.1
  obtain ⟨r, hr⟩ : cutAt c b <+: b := (List.takeWhile_prefix _).trans (List.takeWhile_prefix _)
  have hset : terminateAt c b = cutAt c b ++ r.set 0 '\x00' := by
    have h := List.set_append_right (s := cutAt c b) (t := r) _ '\x00' (Nat.le_refl _)
    rw [hr, Nat.sub_self] at h
    exact h
  rw [hset]
  cases r with
  | nil =>
      rw [List.set_nil, List.append_nil]
      exact takeWhile_of_all hno
  | cons x r => exact takeWhile_append_stop hno (by decide)

/-- What is cut from the bytes `s` and the memory `rest` behind them: the part of `s` before the
    first `c` exactly if no NUL comes before it and, without a `c` in `s`, the memory stops. -/
theorem cutAt_append_iff {c : Char} {s rest : List Char} (hc0 : c ≠ '\x00') :
    cutAt c (s ++ rest) = s.takeWhile (· ≠ c) ↔
      '\x00' ∉ s.takeWhile (· ≠ c) ∧ (c ∈ s ∨ ∀ x ∈ rest.head?, x = '\x00' ∨ x = c) := by
  have hnul : cutAt c (s ++ rest) = s.takeWhile (· ≠ c) → '\x00' ∉ s.takeWhile (· ≠ c) := by
    intro h hmem
    rw [← h] at hmem
    exact (mem_cutAt hmem).2.1 rfl
  by_cases hc : c ∈ s
  · obtain ⟨a, r, rfl, hca⟩ := List.eq_append_cons_of_mem hc
    have htake : (a ++ c :: r).takeWhile (· ≠ c) = a :=
      takeWhile_append_stop (all_ne hca) (by simp)
    refine ⟨fun h => ⟨hnul h, Or.inl hc⟩, fun h => ?_⟩
    rw [htake] at h ⊢
    rw [List.append_assoc]
    exact cutAt_terminated hca h.1 hc0
  · have htake : s.takeWhile (· ≠ c) = s := takeWhile_of_all (all_ne hc)
    rw [htake] at hnul ⊢
    refine ⟨fun h => ⟨hnul h, Or.inr fun x hx => ?_⟩, ?_⟩
    · -- a further character would belong to the string
      obtain ⟨r, rfl⟩ := List.head?_eq_some_iff.mp hx
      by_contra hx'
      obtain ⟨hx0, hxc⟩ := not_or.mp hx'
      have hlong : cutAt c (s ++ x :: r) = s ++ x :: cutAt c r := by
        unfold cutAt cstr
        rw [List.takeWhile_append_of_pos (all_ne (hnul h)), List.takeWhile_cons,
          if_pos (by simpa using hx0), List.takeWhile_append_of_pos (all_ne hc),
          List.takeWhile_cons, if_pos (by simpa using hxc)]
      rw [h] at hlong
      have := congrArg List.length hlong
      simp at this
    · intro h
      obtain ⟨h0, hstop⟩ := h
      have hstop := hstop.resolve_left hc
      cases rest with
      | nil =>
          unfold cutAt cstr
          rw [List.append_nil, takeWhile_of_all (all_ne h0), takeWhile_of_all (all_ne hc)]
      | cons x r =>
          rcases hstop x rfl with rfl | rfl
          · unfold cutAt cstr
            rw [takeWhile_append_stop (all_ne h0) (by simp), takeWhile_of_all (all_ne hc)]
          · exact cutAt_terminated hc h0 hc0

/-- Where a NUL is, it stays. -/
def KeepsNul (b b' : List Char) : Prop := ∀ n : Nat, b[n]? = some '\x00' → b'[n]? = some '\x00'

theorem keepsNul_clearString (b : List Char) : KeepsNul b (clearString b) := by
  intro n hn
  have hlt := (List.getElem?_eq_some_iff.mp hn).1
  unfold clearString
  by_cases h : n < (cstr b).length
  · rw [List.getElem?_append_left (by rw [List.length_replicate]; exact h),
      List.getElem?_replicate, if_pos h]
  · rw [List.getElem?_append_right (by rw [List.length_replicate]; omega), List.length_replicate,
      List.getElem?_drop, Nat.add_sub_cancel' (by omega)]
    exact hn

theorem keepsNul_terminateAt (c : Char) (b : List Char) : KeepsNul b (terminateAt c b) := by
  intro n hn
  have hlt := (List.getElem?_eq_some_iff.mp hn).1
  unfold terminateAt
  rw [List.getElem?_set]
  split
  · rename_i h
    rw [if_pos (by omega)]
  · exact hn

theorem keepsNul_strtokMarks (d : Char) : ∀ (k : Nat) (b : List Char), KeepsNul b (strtokMarks d k b)
  | 0, b => fun n hn => by rwa [strtokMarks]
  | _ + 1, [] => fun n hn => by rwa [strtokMarks]
  | k + 1, c :: b => by
      intro n hn
      unfold strtokMarks
      split
      · exact hn
      · rename_i hc
        split
        · cases n with
          | zero => rfl
          | succ n => exact keepsNul_strtokMarks d k b n hn
        · cases n with
          | zero => exact absurd (Option.some.inj hn) hc
          | succ n => exact keepsNul_strtokMarks d (k + 1) b n hn

theorem length_clearString (b : List Char) : (clearString b).length = b.length := by
  have hle : (cstr b).length ≤ b.length := (List.takeWhile_prefix _).length_le
  unfold clearString
  rw [List.length_append, List.length_replicate, List.length_drop]
  omega

theorem length_strtokMarks (d : Char) : ∀ (k : Nat) (b : List Char),
    (strtokMarks d k b).length = b.length
  | 0, b => by rw [strtokMarks]
  | _ + 1, [] => by rw [strtokMarks]
  | k + 1, c :: b => by
      unfold strtokMarks
      split
      · rfl
      · split
        · exact congrArg (· + 1) (length_strtokMarks d k b)
        · exact congrArg (· + 1) (length_strtokMarks d (k + 1) b)

/-! ## 3. Numbers -/

/-- `isdigit`. -/
def isdigit (c : Char) : Bool := c.isDigit

/-- `isspace` in the C locale. -/
def isspace (c : Char) : Bool := c = ' ' || (9 ≤ c.toNat && c.toNat ≤ 13)

/-- The value of the leading digits. -/
def digitsVal (s : List Char) : Nat := Nat.ofDigitChars 10 (s.takeWhile isdigit) 0

/-- The low 32 bits of an integer, as an `int`. -/
def toInt32 (n : Int) : Int := Int.bmod n (2 ^ 32)

/-- The low 64 bits of an integer, as a `long long`. -/
def toInt64 (n : Int) : Int := Int.bmod n (2 ^ 64)

/-- `atoi` of glibc: `strtol` in base 10, saturating at `LONG_MAX` and `LONG_MIN`, truncated
    to an `int`. -/
def atoi (s : List Char) : Int :=
  match s.dropWhile isspace with
  | '-' :: ds => toInt32 (-(min (digitsVal ds) (2 ^ 63) : Nat))
  | '+' :: ds => toInt32 (min (digitsVal ds) (2 ^ 63 - 1) : Nat)
  | ds => toInt32 (min (digitsVal ds) (2 ^ 63 - 1) : Nat)

/-- `sprintf` of an integer with `%d`. -/
def itoa : Int → List Char
  | .ofNat n => Nat.toDigits 10 n
  | .negSucc n => '-' :: Nat.toDigits 10 (n + 1)

theorem isdigit_toDigits {n : Nat} {c : Char} (h : c ∈ Nat.toDigits 10 n) : isdigit c = true :=
  Nat.isDigit_of_mem_toDigits (by omega) (by omega) h

theorem isdigit_not_space {c : Char} (h : isdigit c = true) : isspace c = false := by
  simp only [isdigit, Char.isDigit, ge_iff_le, Bool.and_eq_true, decide_eq_true_eq,
    UInt32.le_iff_toNat_le] at h
  have h48 : 48 ≤ c.toNat := h.1
  simp only [isspace, Bool.or_eq_false_iff, decide_eq_false_iff_not, Bool.and_eq_false_iff]
  refine ⟨fun e => ?_, Or.inr (by omega)⟩
  subst e
  exact absurd h48 (by decide)

theorem digitsVal_toDigits (n : Nat) : digitsVal (Nat.toDigits 10 n) = n := by
  unfold digitsVal
  rw [takeWhile_of_all (fun x hx => isdigit_toDigits hx), Nat.ofDigitChars_ten_toDigits]

theorem toInt32_of_range {n : Int} (h : -2 ^ 31 ≤ n ∧ n < 2 ^ 31) : toInt32 n = n := by
  unfold toInt32
  rw [Int.bmod_eq_of_le_mul_two] <;> omega

theorem toInt32_of_small {n : Nat} (h : n < 2 ^ 31) : toInt32 n = n :=
  toInt32_of_range (by omega)

theorem toInt64_of_range {n : Int} (h : -2 ^ 63 ≤ n ∧ n < 2 ^ 63) : toInt64 n = n := by
  unfold toInt64
  rw [Int.bmod_eq_of_le_mul_two] <;> omega

/-- `atoi` on a digit string. -/
theorem atoi_digits {s : List Char} (hs : ∀ c ∈ s, isdigit c = true) :
    atoi s = toInt32 (min (digitsVal s) (2 ^ 63 - 1) : Nat) := by
  unfold atoi
  cases s with
  | nil => rfl
  | cons c cs =>
      have hc := hs c List.mem_cons_self
      rw [List.dropWhile_cons, isdigit_not_space hc]
      split
      · rename_i ds e
        obtain ⟨rfl, -⟩ := List.cons.inj e
        exact absurd hc (by decide)
      · rename_i ds e
        obtain ⟨rfl, -⟩ := List.cons.inj e
        exact absurd hc (by decide)
      · rfl

theorem atoi_lt (s : List Char) : atoi s < 2 ^ 31 := by
  have h : ∀ n : Int, toInt32 n < 2 ^ 31 := by
    intro n
    unfold toInt32
    have := Int.bmod_lt (x := n) (m := 2 ^ 32) (by omega)
    omega
  unfold atoi
  split <;> exact h _

/-- **`atoi` delivers the number written exactly if it is an `int`.** -/
theorem atoi_eq_iff {s : List Char} (hs : ∀ c ∈ s, isdigit c = true) :
    atoi s = digitsVal s ↔ digitsVal s < 2 ^ 31 := by
  refine ⟨fun h => ?_, fun h => ?_⟩
  · have hlt := atoi_lt s
    omega
  · rw [atoi_digits hs, Nat.min_eq_left (by omega), toInt32_of_small h]

/-- **`atoi` reads back what `%d` printed**, for the non-negative values of an `int`. -/
theorem atoi_itoa {n : Nat} (h : n < 2 ^ 31) : atoi (itoa n) = n := by
  show atoi (Nat.toDigits 10 n) = n
  rw [atoi_digits (fun c hc => isdigit_toDigits hc), digitsVal_toDigits,
    Nat.min_eq_left (by omega), toInt32_of_small h]

/-- Beyond the values of an `int`, `atoi` stays below what was printed. -/
theorem atoi_itoa_le (n : Nat) : atoi (itoa n) ≤ n := by
  show atoi (Nat.toDigits 10 n) ≤ n
  rw [atoi_digits (fun c hc => isdigit_toDigits hc), digitsVal_toDigits]
  unfold toInt32
  have hmod : Int.bmod (min n (2 ^ 63 - 1) : Nat) (2 ^ 32) ≤ (min n (2 ^ 63 - 1) : Nat) := by
    rw [Int.bmod_def]
    split <;> omega
  omega

theorem itoa_digits (n : Nat) : ∀ c ∈ itoa n, isdigit c = true :=
  fun _ hc => isdigit_toDigits hc

theorem itoa_ne_nil (n : Nat) : itoa n ≠ [] := Nat.toDigits_ne_nil

/-- What is printed with `%d` is digits and a sign. -/
theorem notMem_itoa {c : Char} (hd : isdigit c = false) (hs : c ≠ '-') (i : Int) : c ∉ itoa i := by
  intro h
  have hno : ∀ n : Nat, c ∉ Nat.toDigits 10 n := fun n hn => by
    rw [isdigit_toDigits hn] at hd
    cases hd
  cases i with
  | ofNat n => exact hno n h
  | negSucc n =>
      rcases List.mem_cons.mp h with h | h
      · exact hs h
      · exact hno _ h

theorem itoa_injective : Function.Injective itoa := by
  have hnat : ∀ m n : Nat, Nat.toDigits 10 m = Nat.toDigits 10 n → m = n := by
    intro m n h
    rw [← digitsVal_toDigits m, h, digitsVal_toDigits]
  have hsign : ∀ m n : Nat, Nat.toDigits 10 m ≠ '-' :: Nat.toDigits 10 n := by
    intro m n h
    have hd := isdigit_toDigits (n := m) (c := '-') (by rw [h]; exact List.mem_cons_self)
    exact absurd hd (by decide)
  intro i j h
  cases i with
  | ofNat m =>
      cases j with
      | ofNat n => exact congrArg Int.ofNat (hnat m n h)
      | negSucc n => exact absurd h (hsign m (n + 1))
  | negSucc m =>
      cases j with
      | ofNat n => exact absurd h.symm (hsign n (m + 1))
      | negSucc n => exact congrArg Int.negSucc (Nat.succ.inj (hnat _ _ (List.cons.inj h).2))

theorem toInt32_add (m n : Int) : toInt32 (toInt32 m + n) = toInt32 (m + n) :=
  Int.bmod_add_bmod

/-- A sum that is no `int` is not what is left of it. -/
theorem toInt32_eq_iff {n : Int} (h : 0 ≤ n) : toInt32 n = n ↔ n < 2 ^ 31 := by
  refine ⟨fun e => ?_, fun hlt => ?_⟩
  · have hlt : Int.bmod n (2 ^ 32) < (2 ^ 32 + 1) / 2 := Int.bmod_lt (by omega)
    unfold toInt32 at e
    omega
  · obtain ⟨m, rfl⟩ := Int.eq_ofNat_of_zero_le h
    exact toInt32_of_small (by omega)

/-! ## 4. Tokens -/

/-- One call of `strtok` with the delimiter `d`: the next token, and where the next call goes on. -/
def strtok (d : Char) (s : List Char) : Option (List Char × List Char) :=
  match s.dropWhile (· = d) with
  | [] => none
  | c :: cs => some ((c :: cs).takeWhile (· ≠ d), ((c :: cs).dropWhile (· ≠ d)).drop 1)

/-- The tokens of the first `n` calls of a `strtok` loop. -/
def strtokAll (d : Char) : Nat → List Char → List (List Char)
  | 0, _ => []
  | n + 1, s =>
      match strtok d s with
      | none => []
      | some (w, rest) => w :: strtokAll d n rest

/-- All tokens of a string: there are at most as many as it has characters. -/
def tokens (d : Char) (s : List Char) : List (List Char) := strtokAll d s.length s

/-- Words with one delimiter between them. -/
def unwords (d : Char) : List (List Char) → List Char
  | [] => []
  | [w] => w
  | w :: v :: ws => w ++ d :: unwords d (v :: ws)

/-- A word: not empty, no delimiter in it. -/
def IsWord (d : Char) (w : List Char) : Prop := w ≠ [] ∧ d ∉ w

theorem strtok_mem {d : Char} {s w rest : List Char} (h : strtok d s = some (w, rest)) :
    IsWord d w ∧ (∀ c ∈ w, c ∈ s) ∧ ∀ c ∈ rest, c ∈ s := by
  unfold strtok at h
  split at h
  · cases h
  · rename_i c cs e
    simp only [Option.some.injEq, Prod.mk.injEq] at h
    obtain ⟨rfl, rfl⟩ := h
    have hsub : ∀ x ∈ c :: cs, x ∈ s := by
      intro x hx
      rw [← e] at hx
      exact (List.dropWhile_sublist _).subset hx
    have hc : c ≠ d := by
      have h := List.head?_dropWhile_not (fun x => decide (x = d)) s
      rw [e] at h
      simpa using h
    refine ⟨⟨?_, ?_⟩, fun x hx => hsub x (List.takeWhile_subset _ hx),
      fun x hx => hsub x ((List.dropWhile_sublist _).subset (List.mem_of_mem_drop hx))⟩
    · rw [List.takeWhile_cons]
      simp [hc]
    · intro hd
      simpa using List.mem_takeWhile_imp hd

theorem mem_strtokAll {d : Char} (n : Nat) (s w : List Char) (h : w ∈ strtokAll d n s) :
    IsWord d w ∧ ∀ c ∈ w, c ∈ s := by
  induction n generalizing s with
  | zero => exact absurd h List.not_mem_nil
  | succ n ih =>
      unfold strtokAll at h
      split at h
      · exact absurd h List.not_mem_nil
      · rename_i v rest e
        obtain ⟨h1, h2, h3⟩ := strtok_mem e
        rcases List.mem_cons.mp h with rfl | h
        · exact ⟨h1, h2⟩
        · obtain ⟨h4, h5⟩ := ih rest h
          exact ⟨h4, fun c hc => h3 c (h5 c hc)⟩

theorem strtokAll_eq_nil_iff {d : Char} {n : Nat} {s : List Char} :
    strtokAll d (n + 1) s = [] ↔ strtok d s = none := by
  unfold strtokAll
  cases strtok d s with
  | none => simp
  | some p => simp

/-- A token is a word, made of characters of the string. -/
theorem mem_tokens {d : Char} {s w : List Char} (h : w ∈ tokens d s) :
    IsWord d w ∧ ∀ c ∈ w, c ∈ s :=
  mem_strtokAll _ s w h

theorem strtok_word {d : Char} {w r : List Char} (hw : IsWord d w) :
    strtok d w = some (w, []) ∧ strtok d (w ++ d :: r) = some (w, r) := by
  obtain ⟨hne, hd⟩ := hw
  have hall := all_ne hd
  cases w with
  | nil => exact absurd rfl hne
  | cons c cs =>
      have hc : c ≠ d := fun e => hd (e ▸ List.mem_cons_self)
      have e1 : ∀ l, (c :: l).dropWhile (fun x => decide (x = d)) = c :: l := by
        intro l
        rw [List.dropWhile_cons]
        simp [hc]
      refine ⟨?_, ?_⟩
      · unfold strtok
        rw [e1]
        simp only [takeWhile_of_all hall, List.dropWhile_eq_nil_iff.mpr hall, List.drop_nil]
      · unfold strtok
        rw [List.cons_append, e1]
        have e2 : (c :: (cs ++ d :: r)).takeWhile (fun x => decide (x ≠ d)) = c :: cs :=
          takeWhile_append_stop (s := c :: cs) hall (by simp)
        have e3 : (c :: (cs ++ d :: r)).dropWhile (fun x => decide (x ≠ d)) = d :: r := by
          show (c :: cs ++ d :: r).dropWhile (fun x => decide (x ≠ d)) = d :: r
          rw [List.dropWhile_append_of_pos hall, List.dropWhile_cons]
          simp
        simp only [e2, e3, List.drop_succ_cons, List.drop_zero]

/-- **A `strtok` loop splits single-spaced text into its words.** -/
theorem strtokAll_unwords {d : Char} : ∀ (ws : List (List Char)) (n : Nat),
    (∀ w ∈ ws, IsWord d w) → ws.length ≤ n → strtokAll d n (unwords d ws) = ws
  | [], n, _, _ => by
      cases n with
      | zero => rfl
      | succ n => rfl
  | [w], n, hw, hn => by
      obtain ⟨m, rfl⟩ : ∃ m, n = m + 1 := ⟨n - 1, by simp at hn; omega⟩
      rw [unwords, strtokAll, (strtok_word (r := []) (hw w List.mem_cons_self)).1]
      cases m with
      | zero => rfl
      | succ m => rfl
  | w :: v :: ws, n, hw, hn => by
      obtain ⟨m, rfl⟩ : ∃ m, n = m + 1 := ⟨n - 1, by simp at hn; omega⟩
      rw [unwords, strtokAll, (strtok_word (hw w List.mem_cons_self)).2]
      simp only [List.cons.injEq, true_and]
      exact strtokAll_unwords (v :: ws) m (fun x hx => hw x (List.mem_cons_of_mem _ hx))
        (by simpa using hn)

theorem length_le_unwords {d : Char} : ∀ (ws : List (List Char)), (∀ w ∈ ws, IsWord d w) →
    ws.length ≤ (unwords d ws).length
  | [], _ => Nat.le_refl _
  | [w], hw => List.length_pos_iff.mpr (hw w List.mem_cons_self).1
  | w :: v :: ws, hw => by
      have h1 := List.length_pos_iff.mpr (hw w List.mem_cons_self).1
      have h2 := length_le_unwords (v :: ws) (fun x hx => hw x (List.mem_cons_of_mem _ hx))
      simp only [unwords, List.length_append, List.length_cons] at h2 ⊢
      omega

theorem tokens_unwords {d : Char} (ws : List (List Char)) (hw : ∀ w ∈ ws, IsWord d w) :
    tokens d (unwords d ws) = ws :=
  strtokAll_unwords ws _ hw (length_le_unwords ws hw)

end SysProg.Lib
