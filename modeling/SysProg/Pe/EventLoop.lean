/-
  File:      SysProg/Pe/EventLoop.lean
  Subject:   THE PIPES UNDER THE TWO EVENT LOOPS (main of pe_exchange.c, main
             of pe_trader.c): signals, `read`, the buffer, and what is handed
             to `read_message` and `read_from_exc`.

  Both loops handle one signal a round: they read up to `BUFFER_READ` bytes
  into a buffer that still holds what the last message left behind its first
  NUL, and cut it at the first `;`. What was read behind that `;` is dropped.
  So a second message in the pipe is lost with the first, unless the read
  happens to end between them.

  `ExchangeLoop` puts the pipes under `Main`: the text of a command is the
  string in the buffer. The pipes to the traders are the other machine,
  `TraderLoop`. `buffer_read` is not initialised, and `strlen` does not stop
  at its end: the field `bufferRead` is the memory from the buffer on.
  A `read` of an empty pipe waits, and a signal does not interrupt it here.

  * `loop_simulates` -- main, over its pipes, takes steps of `mainNext`;
  * `OneByOne`, `TraderOneByOne` -- the condition on a step: a read takes
    exactly the first message of the pipe, and a signal announces at most one
    message that was not announced before;
  * `messages_delivered` -- in every run of such steps, of either loop, what
    was written is handed over.
-/
import SysProg.Lib.Channel
import SysProg.Pe.Notify
import SysProg.Pe.Trader

namespace SysProg.Pe

open Lib

def bufferReadSize : Nat := 40
def maxSignals : Nat := 100

/-- What the traders and the exchange write. -/
abbrev Sent := Message ';' bufferReadSize

/-! ## 1. The buffer -/

/-- The checks before the `strtok` loop pass. -/
def wellSpaced (message : List Char) : Bool :=
  message ≠ [] && message.head? ≠ some ' ' && message.getLast? ≠ some ' ' && !doubleSpace message

/-- What the splitting leaves in the buffer: `strtok` is called until there is no further token,
    at most seven times. -/
def splitBuffer (b : List Char) : List Char :=
  if wellSpaced (cstr b) then strtokMarks ' ' 7 b else b

/-- The memory from the zeroed `buffer_read` on. -/
def zeroedBuffer (behind : List Char) : List Char := List.replicate bufferReadSize '\x00' ++ behind

/-- The buffer once `bytes` have been read into it and it has been cut. -/
def received (bytes b : List Char) : List Char := terminateAt ';' (overwrite bytes b)

theorem cstr_received (bytes b : List Char) :
    cstr (received bytes b) = cutAt ';' (overwrite bytes b) := cstr_terminateAt _ _

/-! ## 2. The event loop of the exchange -/

/-- main with its signals and pipes. `channels` are the pipes the exchange reads, by the position
    of the trader; `signalArray` has the length `signal_count`. -/
structure ExchangeLoop where
  main : Main
  channels : List Channel
  signalArray : List Nat
  sigPtr : Nat
  sizeofSignalArray : Nat
  bufferRead : List Char
  deriving DecidableEq, Repr

def exchangeLoopInit (products : List Word) (pids : List Nat) (marketArgv : List Word)
    (bufferRead : List Char) : ExchangeLoop where
  main := mainInit products pids marketArgv
  channels := pids.map fun _ => Channel.empty
  signalArray := []
  sigPtr := 0
  sizeofSignalArray := maxSignals
  bufferRead := bufferRead

/-- A trader writes, its signal arrives, it ends; the loop handles a signal, where `n` is how many
    bytes `read` returns if there are more than fit; the end of an iteration. -/
inductive LoopAct where
  | write (t : Nat) (m : Sent) : LoopAct
  | signal (t : Nat) : LoopAct
  | close (t : Nat) : LoopAct
  | handle (n : Nat) : LoopAct
  | poll (pid : Int) (exited : Bool) : LoopAct

/-- `sig_handler`. A store behind the end of the array is not refused. -/
def sigHandler (l : ExchangeLoop) (t : Nat) : ExchangeLoop :=
  match l.main.exchange.traders[t]? with
  | none => l
  | some tr => { l with
      signalArray := l.signalArray ++ [tr.traderPid]
      channels := l.channels.modify t Channel.signal }

/-- What `read` returns for the trader at position `t`; `none` while it waits. The descriptor of
    a trader marked disconnected is closed. -/
def readFrom (l : ExchangeLoop) (t n : Nat) : Option (List Char) :=
  match l.main.exchange.traders[t]?, l.channels[t]? with
  | some tr, some c => if tr.disconnected then some [] else c.read bufferReadSize n
  | _, _ => none

/-- The body of `if (sig_ptr < signal_count)` for the trader `t` with the process id `pid`, once
    `bytes` have been read. -/
def handleBytes (fee : Int → Int) (l : ExchangeLoop) (t pid : Nat) (bytes : List Char) :
    ExchangeLoop :=
  let buffer := received bytes (clearString l.bufferRead)
  { main := mainNext fee l.main (.command pid (cstr buffer))
    channels := l.channels.modify t (·.hand bytes (cstr buffer))
    signalArray := l.signalArray
    sigPtr := l.sigPtr + 1
    sizeofSignalArray :=
      if l.signalArray.length = l.sizeofSignalArray - 10 then l.sizeofSignalArray + maxSignals
      else l.sizeofSignalArray
    bufferRead := clearString (splitBuffer buffer) }

/-- The trader whose signal is next, with its process id. -/
def nextSignal (l : ExchangeLoop) : Option (Nat × Nat) :=
  if l.main.exchangeDisconnect then none
  else (l.signalArray[l.sigPtr]?).bind fun pid =>
    (findTrader l.main.exchange.traders pid).map fun t => (t, pid)

def handleSignal (fee : Int → Int) (l : ExchangeLoop) (n : Nat) : ExchangeLoop :=
  match nextSignal l with
  | none => l
  | some (t, pid) =>
      match readFrom l t n with
      | none => l
      | some bytes => handleBytes fee l t pid bytes

def loopNext (fee : Int → Int) (l : ExchangeLoop) : LoopAct → ExchangeLoop
  | .write t m => { l with channels := l.channels.modify t (·.write ';' m.text) }
  | .signal t => sigHandler l t
  | .close t => { l with channels := l.channels.modify t Channel.close }
  | .handle n => handleSignal fee l n
  | .poll pid exited => { l with main := mainNext fee l.main (.poll pid exited) }

/-- One message at a time: a message has no NUL in it; a signal announces at most one message
    that was not announced before; and the loop reads exactly the first message of the pipe, of a
    connected trader. -/
def OneByOne (l : ExchangeLoop) : LoopAct → Prop
  | .write _ m => '\x00' ∉ m.text
  | .signal t => ∀ c ∈ l.channels[t]?, c.written.length ≤ c.signals + 1
  | .close _ => True
  | .handle n => ∀ x ∈ nextSignal l, connected l.main.exchange.traders x.1 = true ∧
      ∀ c ∈ l.channels[x.1]?, c.ReadsOne ';' bufferReadSize n
  | .poll _ _ => True

instance (l : ExchangeLoop) (a : LoopAct) : Decidable (OneByOne l a) := by
  unfold OneByOne
  split <;> infer_instance

/-- **Whatever the pipes do, main takes steps of its model**: its state is one that a list of
    inputs leads to. -/
theorem loop_simulates (fee : Int → Int) (products : List Word) (pids : List Nat)
    (marketArgv : List Word) (bufferRead : List Char) (acts : List LoopAct) :
    ∃ is, (run (loopNext fee) (exchangeLoopInit products pids marketArgv bufferRead) acts).main =
      mainRun fee products pids marketArgv is := by
  refine run_inv
    (I := fun l : ExchangeLoop => ∃ is, l.main = mainRun fee products pids marketArgv is)
    (fun l a hl => ?_) acts ⟨[], rfl⟩
  obtain ⟨is, his⟩ := hl
  have hstep : ∀ i, ∃ js, mainNext fee l.main i = mainRun fee products pids marketArgv js := by
    intro i
    refine ⟨is ++ [i], ?_⟩
    rw [mainRun, run_append, his]
    rfl
  cases a with
  | write t m => exact ⟨is, his⟩
  | signal t =>
      show ∃ js, (sigHandler l t).main = _
      unfold sigHandler
      split <;> exact ⟨is, his⟩
  | close t => exact ⟨is, his⟩
  | handle n =>
      show ∃ js, (handleSignal fee l n).main = _
      unfold handleSignal
      split
      · exact ⟨is, his⟩
      · split
        · exact ⟨is, his⟩
        · exact hstep _
  | poll pid exited => exact hstep _

/-! ## 3. The event loop of a trader -/

/-- main of pe_trader with its signals and the pipe it reads. -/
structure TraderLoop where
  trader : PeTrader
  channel : Channel
  signalCount : Nat
  signalPtr : Nat
  bufferRead : List Char
  deriving DecidableEq, Repr

def traderLoopInit (marketArgv : List Word) (bufferRead : List Char) : TraderLoop where
  trader := peTraderInit marketArgv
  channel := Channel.empty
  signalCount := 0
  signalPtr := 0
  bufferRead := bufferRead

/-- The exchange writes, its signal arrives, it ends; the loop handles a signal. -/
inductive TraderAct where
  | write (m : Sent) : TraderAct
  | signal : TraderAct
  | close : TraderAct
  | handle (n : Nat) : TraderAct

/-- What `read_from_exc` leaves in the buffer. -/
def splitFromExc (b : List Char) : List Char :=
  if cstr b = "MARKET OPEN".toList then b else splitBuffer b

/-- The body of `if (signal_ptr < signal_count)`, once `bytes` have been read. `strcpy` puts an
    empty string into the buffer first. -/
def traderBytes (l : TraderLoop) (bytes : List Char) : TraderLoop :=
  let buffer := received bytes ((clearString l.bufferRead).set 0 '\x00')
  { trader := (traderStep l.trader (cstr buffer)).1
    channel := l.channel.hand bytes (cstr buffer)
    signalCount := l.signalCount
    signalPtr := l.signalPtr + 1
    bufferRead := clearString (splitFromExc buffer) }

def traderHandle (l : TraderLoop) (n : Nat) : TraderLoop :=
  if l.trader.disconnect = false ∧ l.signalPtr < l.signalCount then
    match l.channel.read bufferReadSize n with
    | none => l
    | some bytes => traderBytes l bytes
  else l

def traderLoopNext (l : TraderLoop) : TraderAct → TraderLoop
  | .write m => { l with channel := l.channel.write ';' m.text }
  | .signal => { l with signalCount := l.signalCount + 1, channel := l.channel.signal }
  | .close => { l with channel := l.channel.close }
  | .handle n => traderHandle l n

/-- The same condition for the pipe to a trader. -/
def TraderOneByOne (l : TraderLoop) : TraderAct → Prop
  | .write m => '\x00' ∉ m.text
  | .signal => l.channel.written.length ≤ l.channel.signals + 1
  | .close => True
  | .handle n => l.channel.ReadsOne ';' bufferReadSize n

instance (l : TraderLoop) (a : TraderAct) : Decidable (TraderOneByOne l a) := by
  unfold TraderOneByOne
  split <;> infer_instance

/-! ## 4. One step keeps the channels in order -/

theorem forall_modify {P : Channel → Prop} {f : Channel → Channel} {cs : List Channel} {t : Nat}
    (hcs : ∀ c ∈ cs, P c) (hf : ∀ c ∈ cs[t]?, P c → P (f c)) : ∀ c ∈ cs.modify t f, P c := by
  intro c hc
  obtain ⟨k, hk⟩ := List.mem_iff_getElem?.mp hc
  obtain ⟨c₀, hc₀, ⟨_, rfl⟩ | ⟨rfl, rfl⟩⟩ := getElem?_modify_of hk
  · exact hcs c (List.mem_of_getElem? hc₀)
  · exact hf c₀ hc₀ (hcs c₀ (List.mem_of_getElem? hc₀))

/-- What is read from a connected trader is what its pipe delivers. -/
theorem readFrom_connected {l : ExchangeLoop} {t n : Nat} {bytes : List Char}
    (hconn : connected l.main.exchange.traders t = true) (h : readFrom l t n = some bytes) :
    ∃ c, l.channels[t]? = some c ∧ c.read bufferReadSize n = some bytes := by
  obtain ⟨tr, htr, hd⟩ := connected_iff.mp hconn
  unfold readFrom at h
  rw [htr] at h
  cases hc : l.channels[t]? with
  | none => rw [hc] at h; cases h
  | some c =>
      rw [hc] at h
      simp only [hd, Bool.false_eq_true, if_false] at h
      exact ⟨c, rfl, h⟩

theorem inOrder_loopNext (fee : Int → Int) {l : ExchangeLoop} (hl : ∀ c ∈ l.channels, c.InOrder ';')
    (a : LoopAct) (ha : OneByOne l a) : ∀ c ∈ (loopNext fee l a).channels, c.InOrder ';' := by
  cases a with
  | write t m => exact forall_modify hl fun c _ hc => inOrder_write hc m.unbroken ha
  | signal t =>
      show ∀ c ∈ (sigHandler l t).channels, c.InOrder ';'
      unfold sigHandler
      split
      · exact hl
      · exact forall_modify hl fun c hct hc => inOrder_signal hc (ha c hct)
  | close t => exact forall_modify hl fun c _ hc => inOrder_close hc
  | handle n =>
      show ∀ c ∈ (handleSignal fee l n).channels, c.InOrder ';'
      unfold handleSignal
      split
      · exact hl
      · rename_i t pid hsig
        obtain ⟨hconn, hone⟩ := ha (t, pid) hsig
        split
        · exact hl
        · rename_i bytes hread
          obtain ⟨c₀, hc₀, hread₀⟩ := readFrom_connected hconn hread
          refine forall_modify hl fun c hct hc => ?_
          rw [hc₀] at hct
          cases hct
          rw [cstr_received]
          exact inOrder_hand hc (by decide) hread₀ (hone c₀ hc₀) _
  | poll pid exited => exact hl

theorem inOrder_traderNext {l : TraderLoop} (hl : l.channel.InOrder ';') (a : TraderAct)
    (ha : TraderOneByOne l a) : (traderLoopNext l a).channel.InOrder ';' := by
  cases a with
  | write m => exact inOrder_write hl m.unbroken ha
  | signal => exact inOrder_signal hl ha
  | close => exact inOrder_close hl
  | handle n =>
      show (traderHandle l n).channel.InOrder ';'
      unfold traderHandle
      split
      · split
        · exact hl
        · rename_i bytes hread
          show (l.channel.hand bytes (cstr (received bytes _))).InOrder ';'
          rw [cstr_received]
          exact inOrder_hand hl (by decide) hread ha _
      · exact hl

/-! ## 5. Every run -/

/-- **No message is lost, merged or handed over twice**, in either direction, in every state of
    a run that reads one message at a time. -/
theorem messages_delivered (fee : Int → Int) (products : List Word) (pids : List Nat)
    (marketArgv : List Word) (bufferRead : List Char) (acts : List LoopAct)
    (traderArgv : List Word) (traderBuffer : List Char) (traderActs : List TraderAct) :
    (AllSteps (loopNext fee) OneByOne (exchangeLoopInit products pids marketArgv bufferRead) acts →
      Always (loopNext fee) (fun l => ∀ c ∈ l.channels, c.Delivered)
        (exchangeLoopInit products pids marketArgv bufferRead) acts) ∧
    (AllSteps traderLoopNext TraderOneByOne (traderLoopInit traderArgv traderBuffer) traderActs →
      Always traderLoopNext (fun l => l.channel.Delivered)
        (traderLoopInit traderArgv traderBuffer) traderActs) := by
  refine ⟨fun h => ?_, fun h => ?_⟩
  · refine always_mono (fun l hl c hc => (hl c hc).delivered) acts
      (always_of_allSteps (P := fun l => ∀ c ∈ l.channels, c.InOrder ';')
        (fun l a hl ha => inOrder_loopNext fee hl a ha) acts (fun c hc => ?_) h)
    obtain ⟨_, _, rfl⟩ := List.mem_map.mp hc
    exact inOrder_empty ';'
  · exact always_mono (fun l hl => hl.delivered) traderActs
      (always_of_allSteps (P := fun l => l.channel.InOrder ';')
        (fun l a hl ha => inOrder_traderNext hl a ha) traderActs (inOrder_empty ';') h)

def firstBuy : Sent := ⟨"BUY 0 GPU 1 10".toList, by decide, by decide⟩
def secondBuy : Sent := ⟨"BUY 1 GPU 1 11".toList, by decide, by decide⟩
def thirdBuy : Sent := ⟨"BUY 2 GPU 1 12".toList, by decide, by decide⟩

/-- A trader that waits for its first message to be handled before it writes the second. -/
theorem messages_delivered_apart :
    Always (loopNext (· / 100)) (fun l => ∀ c ∈ l.channels, c.Delivered)
      (exchangeLoopInit ["GPU".toList] [10] (List.replicate 6 []) (List.replicate 40 'x'))
      [.write 0 firstBuy, .signal 0, .handle 0, .write 0 secondBuy, .signal 0, .handle 0] ∧
    Always traderLoopNext (fun l => l.channel.Delivered)
      (traderLoopInit (List.replicate 6 []) (List.replicate 40 'x'))
      [.write firstBuy, .signal, .handle 0, .write secondBuy, .signal, .handle 0] := by
  have h := messages_delivered (· / 100) ["GPU".toList] [10] (List.replicate 6 [])
    (List.replicate 40 'x')
    [.write 0 firstBuy, .signal 0, .handle 0, .write 0 secondBuy, .signal 0, .handle 0]
    (List.replicate 6 []) (List.replicate 40 'x')
    [.write firstBuy, .signal, .handle 0, .write secondBuy, .signal, .handle 0]
  exact ⟨h.1 (by decide +kernel), h.2 (by decide +kernel)⟩

/-- Two messages are in the pipe when the loop comes to read, each with its signal. The first read
    takes both and hands over the first; the second serves the second signal with the third
    message. The second message is lost, and so it is on the way to a trader. -/
theorem messages_lost :
    let acts : List LoopAct := [.write 0 firstBuy, .signal 0, .write 0 secondBuy, .signal 0,
      .handle 0, .write 0 thirdBuy, .handle 0]
    let l := run (loopNext (· / 100))
      (exchangeLoopInit ["GPU".toList] [10] (List.replicate 6 []) (List.replicate 40 'x')) acts
    (l.channels.map fun c => (c.signals, c.served, c.announced, c.handed)) =
      [(2, 2, 2, [firstBuy.text, thirdBuy.text])] ∧
    ¬ Always (loopNext (· / 100)) (fun l => ∀ c ∈ l.channels, c.Delivered)
      (exchangeLoopInit ["GPU".toList] [10] (List.replicate 6 []) (List.replicate 40 'x')) acts ∧
    ¬ Always traderLoopNext (fun l => l.channel.Delivered)
      (traderLoopInit (List.replicate 6 []) (List.replicate 40 'x'))
      [.write firstBuy, .signal, .write secondBuy, .signal, .handle 0, .write thirdBuy,
        .handle 0] := by
  intro acts l
  refine ⟨by decide +kernel, fun h => ?_, fun h => ?_⟩
  · exact absurd (always_last acts h) (by decide +kernel)
  · exact absurd (always_last _ h) (by decide +kernel)

end SysProg.Pe
