/-
  File:      SysProg/Lib/Channel.lean
  Subject:   MESSAGES OVER A PIPE WITHOUT BOUNDARIES. A writer appends
             messages that end in a stop character and sends signals; the
             reader, once for each signal, reads up to `limit` bytes and takes
             what stands before the first stop.

  A `Channel` holds the bytes of the pipe and the record of what has happened
  to it: the messages written and handed over, the signals that have arrived
  and those that have been served, and how many messages had been written when
  the last signal arrived.

  * `Delivered` -- what the reader owes the writer;
  * `InOrder` -- the invariant of a reader whose every read takes exactly one
    message, with one lemma per operation (`inOrder_write`, `inOrder_signal`,
    `inOrder_hand`);
  * `InOrder.delivered` -- it is enough.
-/
import SysProg.Lib.CString

namespace SysProg.Lib

/-! ## 1. Channels -/

/-- A message of at most `limit` bytes, its terminator included. -/
structure Message (stop : Char) (limit : Nat) where
  text : List Char
  unbroken : stop ∉ text
  fits : text.length < limit

structure Channel where
  fifo : List Char
  closed : Bool
  written : List (List Char)
  handed : List (List Char)
  signals : Nat
  served : Nat
  announced : Nat
  deriving DecidableEq, Repr

def Channel.empty : Channel where
  fifo := []
  closed := false
  written := []
  handed := []
  signals := 0
  served := 0
  announced := 0

/-- The writer writes a message. -/
def Channel.write (stop : Char) (c : Channel) (text : List Char) : Channel :=
  { c with fifo := c.fifo ++ (text ++ [stop]), written := c.written ++ [text] }

/-- A signal of the writer arrives. -/
def Channel.signal (c : Channel) : Channel :=
  { c with signals := c.signals + 1, announced := c.written.length }

/-- The writer is gone. -/
def Channel.close (c : Channel) : Channel := { c with closed := true }

/-- The number of bytes `read` returns: all that are there, if they fit, else between 1 and
    `limit` of them. -/
def readLength (limit available n : Nat) : Nat :=
  if available ≤ limit then available else max 1 (min n limit)

/-- The bytes `read` returns: none from an empty pipe whose writer is gone; from an empty pipe it
    waits. -/
def Channel.read (limit n : Nat) (c : Channel) : Option (List Char) :=
  if c.fifo = [] ∧ c.closed = false then none
  else some (c.fifo.take (readLength limit c.fifo.length n))

/-- A signal is served: `bytes` were read, `text` is handed over. -/
def Channel.hand (c : Channel) (bytes text : List Char) : Channel :=
  { c with
    fifo := c.fifo.drop bytes.length
    handed := c.handed ++ [text]
    served := c.served + 1 }

/-- **What is owed**: every message is handed over at most once and in the order written; and
    once as many signals have been served as have arrived, every message written before the last
    of them has been handed over. -/
def Channel.Delivered (c : Channel) : Prop :=
  c.handed.Sublist c.written ∧
    (c.signals ≤ c.served → (c.written.take c.announced).Sublist c.handed)

instance (c : Channel) : Decidable c.Delivered := inferInstanceAs (Decidable (_ ∧ (_ → _)))

/-- What `read` returns is the first message of the pipe, with its stop, and nothing else. -/
def Channel.ReadsOne (stop : Char) (limit n : Nat) (c : Channel) : Prop :=
  ∀ bytes ∈ c.read limit n, bytes = c.fifo.takeWhile (· ≠ stop) ++ [stop]

instance (stop : Char) (limit n : Nat) (c : Channel) : Decidable (c.ReadsOne stop limit n) :=
  inferInstanceAs (Decidable (∀ bytes ∈ _, _))

/-! ## 2. The invariant -/

/-- The bytes of a list of messages. -/
def frames (stop : Char) (ms : List (List Char)) : List Char := ms.flatMap (· ++ [stop])

structure Channel.InOrder (stop : Char) (c : Channel) : Prop where
  served : c.served ≤ c.written.length
  handed : c.handed = c.written.take c.served
  fifo : c.fifo = frames stop (c.written.drop c.served)
  plain : ∀ m ∈ c.written, stop ∉ m ∧ '\x00' ∉ m
  announced : c.announced ≤ c.signals

section Operations

variable {stop : Char} {c : Channel}

theorem inOrder_empty (stop : Char) : Channel.empty.InOrder stop :=
  ⟨Nat.le_refl 0, rfl, rfl, fun _ hm => absurd hm List.not_mem_nil, Nat.le_refl 0⟩

theorem inOrder_write (hc : c.InOrder stop) {text : List Char} (hstop : stop ∉ text)
    (hnul : '\x00' ∉ text) : (c.write stop text).InOrder stop := by
  obtain ⟨hs, hh, hf, hp, ha⟩ := hc
  refine ⟨?_, ?_, ?_, fun m hm => ?_, ha⟩
  · show c.served ≤ (c.written ++ [text]).length
    rw [List.length_append]
    exact Nat.le_add_right_of_le hs
  · show c.handed = (c.written ++ [text]).take c.served
    rw [List.take_append_of_le_length hs]
    exact hh
  · show c.fifo ++ (text ++ [stop]) = frames stop ((c.written ++ [text]).drop c.served)
    rw [List.drop_append_of_le_length hs, hf]
    simp [frames]
  · rcases List.mem_append.mp hm with hm | hm
    · exact hp m hm
    · rw [List.mem_singleton.mp hm]
      exact ⟨hstop, hnul⟩

/-- A signal announces at most one message that no signal has announced yet. -/
theorem inOrder_signal (hc : c.InOrder stop) (hone : c.written.length ≤ c.signals + 1) :
    c.signal.InOrder stop :=
  ⟨hc.served, hc.handed, hc.fifo, hc.plain, hone⟩

theorem inOrder_close (hc : c.InOrder stop) : c.close.InOrder stop :=
  ⟨hc.served, hc.handed, hc.fifo, hc.plain, hc.announced⟩

/-- **A read that takes one message hands it over**, whatever the buffer held before. -/
theorem inOrder_hand (hc : c.InOrder stop) (hstop : stop ≠ '\x00') {limit n : Nat}
    {bytes : List Char} (hread : c.read limit n = some bytes) (hone : c.ReadsOne stop limit n)
    (b : List Char) : (c.hand bytes (cutAt stop (overwrite bytes b))).InOrder stop := by
  have hbytes := hone bytes hread
  obtain ⟨hs, hh, hf, hp, ha⟩ := hc
  cases hd : c.written.drop c.served with
  | nil =>
      -- nothing is unread: the read returned no bytes
      rw [hd] at hf
      have hempty : c.fifo = [] := hf
      have hnone : bytes = [] := by
        unfold Channel.read at hread
        split at hread
        · cases hread
        · rw [hempty, List.take_nil] at hread
          exact (Option.some.inj hread).symm
      rw [hempty, hnone] at hbytes
      cases hbytes
  | cons m ms =>
      have hm : m ∈ c.written := List.mem_of_mem_drop (by rw [hd]; exact List.mem_cons_self)
      obtain ⟨hms, hm0⟩ := hp m hm
      rw [hd] at hf
      have hframe : c.fifo = (m ++ [stop]) ++ frames stop ms := by
        rw [hf]
        exact List.flatMap_cons
      have hhead : bytes = m ++ [stop] := by
        rw [hbytes, hframe, List.append_assoc, List.singleton_append,
          takeWhile_append_stop (fun x hx => ?_) (by simp)]
        have : x ≠ stop := fun he => hms (he ▸ hx)
        simpa using this
      have htext : cutAt stop (overwrite bytes b) = m := by
        unfold overwrite
        rw [hhead, List.append_assoc, List.singleton_append]
        exact cutAt_terminated hms hm0 hstop
      have hlt : c.served < c.written.length := by
        refine Nat.lt_of_not_le fun hle => ?_
        rw [List.drop_eq_nil_of_le hle] at hd
        cases hd
      obtain ⟨hget, hrest⟩ := List.cons.inj ((List.drop_eq_getElem_cons hlt).symm.trans hd)
      rw [htext]
      refine ⟨hlt, ?_, ?_, hp, ha⟩
      · show c.handed ++ [m] = c.written.take (c.served + 1)
        rw [List.take_add_one, List.getElem?_eq_getElem hlt, hget, hh]
        rfl
      · show c.fifo.drop bytes.length = frames stop (c.written.drop (c.served + 1))
        rw [hframe, hhead, hrest, List.drop_left]

/-- **In order is enough.** -/
theorem Channel.InOrder.delivered (hc : c.InOrder stop) : c.Delivered := by
  unfold Channel.Delivered
  rw [hc.handed]
  refine ⟨List.take_sublist _ _, fun hle => ?_⟩
  have hmin : c.announced ≤ c.served := Nat.le_trans hc.announced hle
  have htake : (c.written.take c.served).take c.announced = c.written.take c.announced := by
    rw [List.take_take, Nat.min_eq_left hmin]
  rw [← htake]
  exact List.take_sublist _ _

end Operations

end SysProg.Lib
