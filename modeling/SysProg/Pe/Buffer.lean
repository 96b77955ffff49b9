/-
  File:      SysProg/Pe/Buffer.lean
  Subject:   WHAT ONE COMMAND LEAVES IN `buffer_read` FOR THE NEXT.

  The buffer is cleared up to its first NUL only, and by then `strtok` has put
  a NUL behind every word: the words behind the first one stay. A terminated
  message hides them. A message without `;` runs on into what stands behind
  it, up to the next NUL or `;`.

  * `passed`, `leftBy` -- what is handed to `read_message`, and what stays;
    `loop_buffer` -- these are the buffers of the event loop;
  * `leftBy_nul` -- a NUL that a message does not reach stays;
  * `passed_iff` -- the message is handed over as it was sent exactly if it
    has no NUL and ends before a NUL or a `;`.
-/
import SysProg.Pe.EventLoop

namespace SysProg.Pe

open Lib

/-! ## 1. The buffer from command to command -/

/-- What one `read` delivers. -/
structure Delivery where
  bytes : List Char
  fits : bytes.length ≤ bufferReadSize

/-- What is handed to `read_message`. -/
def passed (bytes b : List Char) : List Char := cstr (received bytes (clearString b))

/-- The buffer once the command has been read and split. -/
def leftBy (b bytes : List Char) : List Char :=
  clearString (splitBuffer (received bytes (clearString b)))

/-- The buffer after these reads, from a zeroed one on. -/
def bufferAfter (behind : List Char) (earlier : List Delivery) : List Char :=
  earlier.foldl (fun b d => leftBy b d.bytes) (zeroedBuffer behind)

/-- The event loop hands over what is passed, and keeps what is left. -/
theorem handleBytes_buffer (fee : Int → Int) (l : ExchangeLoop) (t pid : Nat) (bytes : List Char) :
    (handleBytes fee l t pid bytes).main =
      mainNext fee l.main (.command pid (passed bytes l.bufferRead)) ∧
    (handleBytes fee l t pid bytes).bufferRead = leftBy l.bufferRead bytes :=
  ⟨rfl, rfl⟩

/-- `read` delivers no more than it was asked for. -/
theorem readFrom_fits {l : ExchangeLoop} {t n : Nat} {bytes : List Char}
    (h : readFrom l t n = some bytes) : bytes.length ≤ bufferReadSize := by
  unfold readFrom at h
  split at h
  · split at h
    · cases h
      exact Nat.zero_le _
    · unfold Channel.read at h
      split at h
      · cases h
      · cases h
        have hle : ∀ a, readLength bufferReadSize a n ≤ bufferReadSize := by
          intro a
          unfold readLength bufferReadSize
          split <;> omega
        exact (List.length_take_le _ _).trans (hle _)
  · cases h

/-- **The buffers of the event loop**: in every run, what the reads so far have left. -/
theorem loop_buffer (fee : Int → Int) (products : List Word) (pids : List Nat) (argv : List Word)
    (behind : List Char) (acts : List LoopAct) :
    ∃ earlier, (run (loopNext fee)
      (exchangeLoopInit products pids argv (zeroedBuffer behind)) acts).bufferRead =
        bufferAfter behind earlier := by
  refine run_inv (I := fun l : ExchangeLoop => ∃ earlier, l.bufferRead = bufferAfter behind earlier)
    (fun l a hl => ?_) acts ⟨[], rfl⟩
  cases a with
  | write t m => exact hl
  | signal t =>
      show ∃ earlier, (sigHandler l t).bufferRead = _
      unfold sigHandler
      split <;> exact hl
  | close t => exact hl
  | poll pid exited => exact hl
  | handle n =>
      show ∃ earlier, (handleSignal fee l n).bufferRead = _
      unfold handleSignal
      split
      · exact hl
      · split
        · exact hl
        · rename_i t pid _ _ bytes hread
          obtain ⟨earlier, he⟩ := hl
          refine ⟨earlier ++ [⟨bytes, readFrom_fits hread⟩], ?_⟩
          rw [(handleBytes_buffer fee l t pid bytes).2, he, bufferAfter, bufferAfter,
            List.foldl_append]
          rfl

/-! ## 2. What a command leaves -/

theorem leftBy_length (b : List Char) (d : Delivery) (hb : bufferReadSize ≤ b.length) :
    (leftBy b d.bytes).length = b.length := by
  have hfits := d.fits
  have hsplit : ∀ b : List Char, (splitBuffer b).length = b.length := by
    intro b
    unfold splitBuffer
    split
    · exact length_strtokMarks _ _ _
    · rfl
  unfold leftBy received terminateAt overwrite
  rw [length_clearString, hsplit, List.length_set, List.length_append, List.length_drop,
    length_clearString]
  omega

/-- A NUL that the message does not reach stays. -/
theorem leftBy_nul {b : List Char} {bytes : List Char} {n : Nat} (hn : bytes.length ≤ n)
    (h : b[n]? = some '\x00') : (leftBy b bytes)[n]? = some '\x00' := by
  have hread : (overwrite bytes (clearString b))[n]? = some '\x00' := by
    unfold overwrite
    rw [List.getElem?_append_right hn, List.getElem?_drop, Nat.add_sub_cancel' hn]
    exact keepsNul_clearString b n h
  have hcut := keepsNul_terminateAt ';' _ n hread
  refine keepsNul_clearString _ n ?_
  unfold splitBuffer
  split
  · exact keepsNul_strtokMarks _ _ _ n hcut
  · exact hcut

theorem bufferAfter_length (behind : List Char) (earlier : List Delivery) :
    (bufferAfter behind earlier).length = (zeroedBuffer behind).length := by
  refine List.foldlRecOn (motive := fun b : List Char => b.length = (zeroedBuffer behind).length)
    earlier _ rfl fun b hb d _ => ?_
  refine (leftBy_length b d ?_).trans hb
  rw [hb]
  simp [zeroedBuffer]

/-- Behind the longest of the messages the buffer is as it was. -/
theorem bufferAfter_nul {behind : List Char} {earlier : List Delivery} {n : Nat}
    (hn : n < bufferReadSize) (h : ∀ d ∈ earlier, d.bytes.length ≤ n) :
    (bufferAfter behind earlier)[n]? = some '\x00' := by
  have hzero : (zeroedBuffer behind)[n]? = some '\x00' := by
    unfold zeroedBuffer
    rw [List.getElem?_append_left (by rw [List.length_replicate]; exact hn),
      List.getElem?_replicate, if_pos hn]
  exact List.foldlRecOn (motive := fun b : List Char => b[n]? = some '\x00') earlier _ hzero
    fun b hb d hd => leftBy_nul (h d hd) hb

/-! ## 3. The next command -/

/-- **A command is judged on its own bytes exactly if it ends**: after any commands, a message of
    fewer than 40 bytes is handed to `read_message` as its part before the first `;` if and only
    if there is no NUL in that part, and it has a `;` or the buffer holds a NUL or a `;` behind
    it. If no earlier message was longer, the buffer does. -/
theorem passed_iff (behind : List Char) (earlier : List Delivery) (message : List Char)
    (hm : message.length < bufferReadSize) :
    let b := bufferAfter behind earlier
    (passed message b = message.takeWhile (· ≠ ';') ↔
      '\x00' ∉ message.takeWhile (· ≠ ';') ∧
        (';' ∈ message ∨ (clearString b)[message.length]? = some '\x00' ∨
          (clearString b)[message.length]? = some ';')) ∧
    ((∀ d ∈ earlier, d.bytes.length ≤ message.length) →
      (clearString b)[message.length]? = some '\x00') := by
  intro b
  refine ⟨?_, fun h => keepsNul_clearString _ _ (bufferAfter_nul hm h)⟩
  have hlen : message.length < (clearString b).length := by
    rw [length_clearString, bufferAfter_length]
    simp only [zeroedBuffer, List.length_append, List.length_replicate]
    omega
  unfold passed
  rw [cstr_received, overwrite, cutAt_append_iff (by decide), List.head?_drop,
    List.getElem?_eq_getElem hlen]
  simp only [Option.mem_def, Option.some.injEq, forall_eq']

/-- A shorter command, after another. -/
theorem passed_iff_shorter :
    let first : Delivery := ⟨"BUY 0 GPU 30 500;".toList, by decide⟩
    ('\x00' ∉ "CANCEL 0;".toList.takeWhile (· ≠ ';') ∧ ';' ∈ "CANCEL 0;".toList) ∧
    passed "CANCEL 0;".toList (bufferAfter [] [first]) = "CANCEL 0".toList := by
  intro first
  have h : '\x00' ∉ "CANCEL 0;".toList.takeWhile (· ≠ ';') ∧ ';' ∈ "CANCEL 0;".toList := by decide
  exact ⟨h, (passed_iff [] [first] "CANCEL 0;".toList (by decide)).1.mpr ⟨h.1, Or.inl h.2⟩⟩

/-- The item of the command before stands behind `CANCEL 0`. -/
theorem passed_stale :
    let b := bufferAfter [] [⟨"BUY 0 GPU 30 500;".toList, by decide⟩]
    passed "CANCEL 0".toList b = "CANCEL 0U".toList ∧
      passed "CANCEL 0".toList b ≠ "CANCEL 0".toList.takeWhile (· ≠ ';') :=
  ⟨by decide +kernel, by decide +kernel⟩

end SysProg.Pe
