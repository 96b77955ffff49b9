/-
  File:      SysProg/Pe/Products.lean
  Subject:   THE PRODUCT FILE (main of pe_exchange.c): the number of products,
             and a line for each of them.

  A line is read by `fgets` into a buffer of 40 bytes, so 39 characters of it
  at most, the newline included; what does not fit is the next line. At the
  end of the file `fgets` leaves the buffer as `malloc` made it. `fgets` is
  the function gitm.c calls too.

  The same loop appends every name to `product_buffer`, the line that is
  printed behind it. This block has 40 bytes for each product, and the line
  begins with 25 characters or more; an append that does not fit is written
  behind the block, and the model stops there (`none`).

  * `readLine_fits`, `readLine_full`, `readLine_long` -- a name that leaves
    room for its newline, one that does not, and one that does not fit;
  * `readLoop_eq` -- the loop delivers its lines if they all fit the block;
  * `readLines_iff` -- the names behind the first line;
  * `products_read_iff` -- a product file is read back as it was written
    exactly if its names fit, each its buffer and all of them the block.
-/
import Mathlib.Data.Nat.Digits.Defs
import SysProg.Gitm.Commands
import SysProg.Pe.EventLoop

namespace SysProg.Pe

open Lib

/-! ## 1. Reading -/

/-- `fgets(buffer, BUFFER_READ, file)` and the cut at the newline. -/
def readLine (buffer file : List Char) : Word × List Char :=
  if file = [] then (cutAt '\n' buffer, [])
  else
    let line := Gitm.fgets (bufferReadSize - 1) file
    (cutAt '\n' line.1, line.2)

/-- `strcat`, and `sprintf` at its begin, into a block of `capacity` bytes: nothing if the text and
    its NUL do not fit. -/
def strcat (capacity : Nat) (text more : List Char) : Option (List Char) :=
  if text.length + more.length < capacity then some (text ++ more) else none

/-- The loop over the products; `buffers` is what `malloc` returns. -/
def readLoop (buffers : Nat → List Char) (capacity : Nat) :
    Nat → Nat → List Char → List Char → Option (List Word × List Char)
  | _, 0, _, productBuffer => some ([], productBuffer)
  | i, n + 1, file, productBuffer => do
      let line := readLine (buffers i) file
      let spaced ← strcat capacity productBuffer [' ']
      let named ← strcat capacity spaced line.1
      let rest ← readLoop buffers capacity (i + 1) n line.2 named
      some (line.1 :: rest.1, rest.2)

/-- "[PEX] Trading %d products:". -/
def tradingLine (productCount : Int) : List Char :=
  "[PEX] Trading ".toList ++ itoa productCount ++ " products:".toList

/-- The products and the line of `product_buffer`. `numlines_str` is empty before the first line is
    read; a negative number of products gives no block. -/
def readProducts (buffers : Nat → List Char) (file : List Char) :
    Option (List Word × List Char) := do
  let line := readLine [] file
  let productCount := atoi line.1
  let capacity := (productCount * bufferReadSize).toNat
  let productBuffer ← strcat capacity [] (tradingLine productCount)
  readLoop buffers capacity 0 productCount.toNat line.2 productBuffer

/-! ## 2. Product files -/

/-- A name that stands on a line of its own. -/
structure ProductName (w : Word) : Prop where
  nonempty : w ≠ []
  newline : '\n' ∉ w
  nul : '\x00' ∉ w

/-- The names, one on each line; the last line may be without a newline, and what comes behind it
    is not read. -/
def Written : List Word → List Char → Prop
  | [], _ => True
  | w :: ws, file =>
      (file = w ∧ ws = []) ∨ ∃ rest, file = w ++ '\n' :: rest ∧ Written ws rest

def ProductFile (names : List Word) (file : List Char) : Prop :=
  ∃ rest, file = itoa names.length ++ '\n' :: rest ∧ Written names rest

/-- The last name fits the buffer, the others leave room for the newline. -/
def NamesFit : List Word → Prop
  | [] => True
  | w :: ws => w.length ≤ (if ws = [] then 39 else 38) ∧ NamesFit ws

instance decidableNamesFit : ∀ ws : List Word, Decidable (NamesFit ws)
  | [] => instDecidableTrue
  | _ :: ws =>
      have := decidableNamesFit ws
      inferInstanceAs (Decidable (_ ∧ _))

/-- The names as they stand in the line: a space in front of each. -/
def spacedNames (names : List Word) : List Char := names.flatMap fun w => ' ' :: w

/-- The line that is printed about the products. -/
def productLine (names : List Word) : List Char :=
  "[PEX] Trading ".toList ++ itoa names.length ++ " products:".toList ++ spacedNames names

/-- The line and its NUL have 40 bytes for each product. -/
def LineFits (names : List Word) : Prop := (productLine names).length < 40 * names.length

instance (names : List Word) : Decidable (LineFits names) := inferInstanceAs (Decidable (_ < _))

theorem productLine_eq (names : List Word) :
    productLine names = tradingLine names.length ++ spacedNames names := rfl

/-! ## 3. One line -/

section Lines

variable {w : List Char} (buffer rest : List Char)

theorem cutAt_name (hn : '\n' ∉ w) (h0 : '\x00' ∉ w) : cutAt '\n' w = w := by
  unfold cutAt cstr
  rw [takeWhile_of_all (all_ne h0), takeWhile_of_all (all_ne hn)]

/-- A line that fits with its newline. -/
theorem readLine_fits (hn : '\n' ∉ w) (h0 : '\x00' ∉ w) (hlen : w.length ≤ 38) :
    readLine buffer (w ++ '\n' :: rest) = (w, rest) := by
  obtain ⟨k, hk⟩ : ∃ k, bufferReadSize - 1 - w.length = k + 1 :=
    ⟨38 - w.length, by unfold bufferReadSize; omega⟩
  have hf := Gitm.fgets_append (n := bufferReadSize - 1) ('\n' :: rest) hn
    (by unfold bufferReadSize; omega)
  rw [hk, Gitm.fgets, if_pos rfl] at hf
  unfold readLine
  rw [if_neg (by simp), hf]
  exact Prod.ext (cutAt_terminated hn h0 (by decide)) rfl

/-- A line of 39 characters leaves its newline behind. -/
theorem readLine_full (hn : '\n' ∉ w) (h0 : '\x00' ∉ w) (hlen : w.length = 39) :
    readLine buffer (w ++ rest) = (w, rest) := by
  have hne : w ++ rest ≠ [] := by
    intro h
    rw [(List.append_eq_nil_iff.mp h).1] at hlen
    cases hlen
  have hsize : w.length = bufferReadSize - 1 := hlen
  have hf := Gitm.fgets_long (n := bufferReadSize - 1) rest hn (Nat.le_of_eq hsize.symm)
  rw [List.take_of_length_le (Nat.le_of_eq hsize),
    List.drop_of_length_le (Nat.le_of_eq hsize)] at hf
  unfold readLine
  rw [if_neg hne, hf]
  exact Prod.ext (cutAt_name hn h0) rfl

/-- The last line, without a newline. -/
theorem readLine_last (hne : w ≠ []) (hn : '\n' ∉ w) (h0 : '\x00' ∉ w) (hlen : w.length ≤ 39) :
    (readLine buffer w).1 = w := by
  have hf := Gitm.fgets_append (n := bufferReadSize - 1) [] hn hlen
  rw [List.append_nil, Gitm.fgets_nil, List.append_nil] at hf
  unfold readLine
  rw [if_neg hne, hf]
  exact cutAt_name hn h0

/-- A longer line is not read as it is. -/
theorem readLine_long (hn : '\n' ∉ w) (hlen : 40 ≤ w.length) :
    (readLine buffer (w ++ rest)).1 ≠ w := by
  intro h
  have hne : w ++ rest ≠ [] := by
    intro h'
    rw [(List.append_eq_nil_iff.mp h').1] at hlen
    exact absurd hlen (by decide)
  have hf := Gitm.fgets_long (n := bufferReadSize - 1) rest hn
    (by unfold bufferReadSize; omega)
  unfold readLine at h
  rw [if_neg hne, hf] at h
  have hle : (cutAt '\n' (w.take (bufferReadSize - 1))).length ≤ 39 :=
    (((List.takeWhile_sublist _).trans (List.takeWhile_sublist _)).length_le).trans
      (List.length_take_le _ _)
  dsimp only at h
  rw [h] at hle
  omega

end Lines

/-! ## 4. The file -/

/-- The lines that `n` calls of `fgets` deliver. -/
def readLines (buffers : Nat → List Char) : Nat → Nat → List Char → List Word
  | _, 0, _ => []
  | i, n + 1, file =>
      (readLine (buffers i) file).1 :: readLines buffers (i + 1) n (readLine (buffers i) file).2

/-- **The loop delivers its lines, and the block holds them all, exactly if they fit it.** -/
theorem readLoop_eq (buffers : Nat → List Char) (capacity n : Nat) :
    ∀ (i : Nat) (file productBuffer : List Char), productBuffer.length < capacity →
      readLoop buffers capacity i n file productBuffer =
        if (productBuffer ++ spacedNames (readLines buffers i n file)).length < capacity then
          some (readLines buffers i n file,
            productBuffer ++ spacedNames (readLines buffers i n file))
        else none := by
  induction n with
  | zero =>
      intro i file productBuffer h
      have hall : productBuffer ++ spacedNames (readLines buffers i 0 file) = productBuffer :=
        List.append_nil _
      rw [hall, if_pos h]
      rfl
  | succ n ih =>
      intro i file productBuffer h
      have hlines : readLines buffers i (n + 1) file = (readLine (buffers i) file).1 ::
          readLines buffers (i + 1) n (readLine (buffers i) file).2 := rfl
      have hrest := ih (i + 1) (readLine (buffers i) file).2
      rw [readLoop, hlines]
      generalize (readLine (buffers i) file).1 = w
      generalize readLines buffers (i + 1) n (readLine (buffers i) file).2 = ws at hrest ⊢
      have hcons : productBuffer ++ spacedNames (w :: ws) =
          productBuffer ++ [' '] ++ w ++ spacedNames ws := by
        simp [spacedNames]
      rw [hcons]
      by_cases hspace : productBuffer.length + [' '].length < capacity
      · by_cases hname : (productBuffer ++ [' ']).length + w.length < capacity
        · -- both appends fit, and the rest of the loop decides
          have hnamed : (productBuffer ++ [' '] ++ w).length < capacity := by
            rw [List.length_append]
            exact hname
          simp only [strcat, if_pos hspace, if_pos hname, Option.bind_eq_bind, Option.bind_some,
            hrest _ hnamed]
          split <;> rfl
        · rw [if_neg (by simp at hname ⊢; omega)]
          simp only [strcat, if_pos hspace, if_neg hname, Option.bind_eq_bind, Option.bind_some,
            Option.bind_none]
      · rw [if_neg (by simp at hspace ⊢; omega)]
        simp only [strcat, if_neg hspace, Option.bind_eq_bind, Option.bind_none]

/-- **The names behind the first line are read as they were written exactly if they fit.** -/
theorem readLines_iff (buffers : Nat → List Char) : ∀ (ws : List Word) (i : Nat) {file : List Char},
    (∀ w ∈ ws, ProductName w) → Written ws file →
      (readLines buffers i ws.length file = ws ↔ NamesFit ws) := by
  intro ws
  induction ws with
  | nil => exact fun _ _ _ _ => ⟨fun _ => trivial, fun _ => rfl⟩
  | cons w ws ih =>
      intro i file hws hfile
      obtain ⟨hw, hws'⟩ := List.forall_mem_cons.mp hws
      have hcons : readLines buffers i (w :: ws).length file = (readLine (buffers i) file).1 ::
          readLines buffers (i + 1) ws.length (readLine (buffers i) file).2 := rfl
      rw [hcons, List.cons_eq_cons]
      by_cases hlong : 40 ≤ w.length
      · -- the name is cut off
        have hfile' : ∃ rest, file = w ++ rest := by
          rcases hfile with ⟨rfl, _⟩ | ⟨rest, rfl, _⟩
          · exact ⟨[], (List.append_nil _).symm⟩
          · exact ⟨_, rfl⟩
        obtain ⟨rest, rfl⟩ := hfile'
        refine ⟨fun h => absurd h.1 (readLine_long _ _ hw.newline hlong), fun h => ?_⟩
        have hle := h.1
        split at hle <;> omega
      · rcases hfile with ⟨rfl, hnil⟩ | ⟨rest, rfl, hrest⟩
        · -- the last line, without a newline
          subst hnil
          refine ⟨fun _ => ⟨?_, trivial⟩, fun _ => ⟨?_, rfl⟩⟩
          · rw [if_pos rfl]
            omega
          · exact readLine_last _ hw.nonempty hw.newline hw.nul (by omega)
        · by_cases hfull : w.length = 39
          · rw [readLine_full _ _ hw.newline hw.nul hfull]
            cases ws with
            | nil =>
                refine ⟨fun _ => ⟨?_, trivial⟩, fun _ => ⟨rfl, rfl⟩⟩
                rw [if_pos rfl]
                omega
            | cons v vs =>
                -- the newline left behind is read as an empty name
                have hv := (List.forall_mem_cons.mp hws').1
                have hempty := readLine_fits (w := []) (buffers (i + 1)) rest
                  List.not_mem_nil List.not_mem_nil (by decide)
                refine ⟨fun h => ?_, fun h => ?_⟩
                · have hsecond := (List.cons_eq_cons.mp h.2).1
                  rw [List.nil_append] at hempty
                  rw [hempty] at hsecond
                  exact absurd hsecond.symm hv.nonempty
                · have hle := h.1
                  rw [if_neg (List.cons_ne_nil _ _)] at hle
                  omega
          · rw [readLine_fits _ _ hw.newline hw.nul (by omega), and_iff_right rfl,
              ih (i + 1) hws' hrest]
            refine ⟨fun h => ⟨?_, h⟩, fun h => h.2⟩
            split <;> omega

/-- **A product file is read back as it was written exactly if its names fit**: the last one in
    39 characters and the others in 38, and the line about them in its block. -/
theorem products_read_iff (buffers : Nat → List Char) {names : List Word} {file : List Char}
    (hnames : ∀ w ∈ names, ProductName w) (hcount : names.length * 40 < 2 ^ 31)
    (hfile : ProductFile names file) :
    readProducts buffers file = some (names, productLine names) ↔
      NamesFit names ∧ LineFits names := by
  obtain ⟨rest, rfl, hrest⟩ := hfile
  have hlen : (itoa names.length).length ≤ 38 := by
    have h := Nat.toDigits_length 10 names.length 10 (by decide) (by omega)
    exact h.trans (by decide)
  have hfirst := readLine_fits [] rest (notMem_itoa (c := '\n') (by decide) (by decide) _)
    (notMem_itoa (c := '\x00') (by decide) (by decide) _) hlen
  have hcapacity : ((names.length : Int) * bufferReadSize).toNat = 40 * names.length := by
    unfold bufferReadSize
    omega
  have hlines := readLines_iff buffers names 0 hnames hrest
  unfold readProducts
  rw [hfirst]
  dsimp only
  rw [atoi_itoa (by omega), Int.toNat_natCast, hcapacity, strcat, List.length_nil, Nat.zero_add,
    List.nil_append]
  by_cases hstart : (tradingLine names.length).length < 40 * names.length
  · rw [if_pos hstart]
    show readLoop buffers _ 0 _ rest _ = _ ↔ _
    rw [readLoop_eq buffers _ _ 0 rest _ hstart]
    constructor
    · intro h
      split at h
      · rename_i hall
        obtain ⟨hnames', hline⟩ := Prod.mk.inj (Option.some.inj h)
        rw [hline] at hall
        exact ⟨hlines.mp hnames', hall⟩
      · cases h
    · intro h
      rw [hlines.mpr h.1]
      exact if_pos h.2
  · -- the head of the line does not fit, let alone all of it
    rw [if_neg hstart]
    refine iff_of_false (fun h => by cases h) fun h => hstart ?_
    have hall := h.2
    unfold LineFits at hall
    rw [productLine_eq, List.length_append] at hall
    omega

/-- The product file of the repository. -/
theorem products_read_iff_sample :
    readProducts (fun _ => []) "2\nGPU\nRouter\n".toList =
      some (["GPU".toList, "Router".toList], "[PEX] Trading 2 products: GPU Router".toList) := by
  refine (products_read_iff _ ?_ (by decide) ⟨"GPU\nRouter\n".toList, by decide, ?_⟩).mpr
    ⟨by decide, by decide⟩
  · intro w hw
    rcases List.mem_cons.mp hw with rfl | hw
    · exact ⟨by decide, by decide, by decide⟩
    · rw [List.mem_singleton.mp hw]
      exact ⟨by decide, by decide, by decide⟩
  · exact Or.inr ⟨"Router\n".toList, by decide, Or.inr ⟨[], by decide, trivial⟩⟩

end SysProg.Pe
