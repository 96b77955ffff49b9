/-
  File:      SysProg/Pe/Broadcast.lean
  Subject:   FROM THE EXCHANGE'S `sprintf` TO THE TRADER'S `process_order`.

  A new order is broadcast as "MARKET <side> <item> <quantity> <price>;". The
  exchange formats it into 128 bytes, the trader reads 40. The word MARKET is
  longer than the id it stands for, so a command that fits into 40 bytes can
  be broadcast as a message that does not. The trader then has a buffer
  without a terminator: what it takes for the message runs on into the memory
  behind the buffer.

  * `readAlone` -- what is handed to `read_from_exc` when the pipe holds one
    message and the buffer has been zeroed;
  * `Recovered` -- the trader reads the order back, whatever stands behind
    the buffer;
  * `recovered_iff` -- exactly if the message has at most 40 bytes;
  * `broadcast_recovered` -- for every order the exchange accepts.
-/
import SysProg.Pe.EventLoop
import SysProg.Pe.Agreement

namespace SysProg.Pe

open Lib

/-! ## 1. One message in the pipe -/

/-- The string `read_from_exc` works on once it has cut it, if the pipe held `text` and nothing
    else. -/
def readAlone (text behind : List Char) : List Char :=
  cstr (received (text.take bufferReadSize) (zeroedBuffer behind))

/-- `read_from_exc` and `process_order` recover the order from the message. -/
def Recovered (argv : List Word) (text : List Char) (o : MarketOrder) : Prop :=
  ∀ behind, (readFromExc (readAlone text behind) argv).1 = .ORDER_RECEIVED ∧
    processOrder (readFromExc (readAlone text behind) argv).2 = some o

/-- A message that fits is read as it was written. -/
theorem readAlone_fits {s : List Char} (hc : ';' ∉ s) (h0 : '\x00' ∉ s)
    (hlen : (s ++ [';']).length ≤ bufferReadSize) (behind : List Char) :
    readAlone (s ++ [';']) behind = cutAt ';' (s ++ [';']) := by
  unfold readAlone
  rw [cstr_received, List.take_of_length_le hlen, overwrite, List.append_assoc, List.singleton_append,
    cutAt_terminated hc h0 (by decide), cutAt_terminated hc h0 (by decide)]

/-- Of one that does not fit, the terminator is lost. -/
theorem readAlone_long {s : List Char} (hc : ';' ∉ s) (h0 : '\x00' ∉ s)
    (hlen : bufferReadSize < (s ++ [';']).length) (behind : List Char) (hb : ';' ∉ behind)
    (hb0 : '\x00' ∉ behind) : readAlone (s ++ [';']) behind = s.take bufferReadSize ++ behind := by
  have hlen' : bufferReadSize ≤ s.length := by
    rw [List.length_append, List.length_singleton] at hlen
    omega
  have htake : (s ++ [';']).take bufferReadSize = s.take bufferReadSize :=
    List.take_append_of_le_length hlen'
  have hover : overwrite (s.take bufferReadSize) (zeroedBuffer behind) =
      s.take bufferReadSize ++ behind := by
    unfold overwrite zeroedBuffer
    rw [List.length_take, Nat.min_eq_left hlen', List.drop_left' List.length_replicate]
  have hin : ∀ c ∈ s.take bufferReadSize ++ behind, c ≠ ';' ∧ c ≠ '\x00' := by
    intro c hm
    rcases List.mem_append.mp hm with hm | hm
    · have hs := List.mem_of_mem_take hm
      exact ⟨fun e => hc (e ▸ hs), fun e => h0 (e ▸ hs)⟩
    · exact ⟨fun e => hb (e ▸ hm), fun e => hb0 (e ▸ hm)⟩
  have hstr : cstr (s.take bufferReadSize ++ behind) = s.take bufferReadSize ++ behind :=
    takeWhile_of_all fun c hm => by simpa using (hin c hm).2
  unfold readAlone
  rw [cstr_received, htake, hover, cutAt, hstr]
  exact takeWhile_of_all fun c hm => by simpa using (hin c hm).1

/-! ## 2. An order -/

section Order

variable {side : OrderType} {item : Word} {quantity unitPrice : Int}

theorem marketText_length (side : OrderType) (item : Word) (quantity unitPrice : Int) :
    (marketText (typeText side) item quantity unitPrice).length =
      11 + ((typeText side).length + item.length + (itoa quantity).length +
        (itoa unitPrice).length) := by
  unfold marketText
  simp only [List.length_append, List.length_cons, List.length_nil,
    show "MARKET ".toList.length = 7 from rfl]
  omega

/-- **The trader recovers an order exactly if its broadcast fits into the read buffer.** -/
theorem recovered_iff {argv : List Word} (hargv : argv.length = commandArgc) (hitem : Plain item)
    (hq : InRange quantity) (hp : InRange unitPrice) :
    Recovered argv (marketText (typeText side) item quantity unitPrice)
        ⟨side, item, quantity, unitPrice⟩ ↔
      (typeText side).length + item.length + (itoa quantity).length + (itoa unitPrice).length ≤
        29 := by
  have hw : ∀ w ∈ ["MARKET".toList, typeText side, item, itoa quantity, itoa unitPrice], Plain w := by
    simp only [List.forall_mem_cons, List.not_mem_nil, false_implies, implies_true, and_true]
    exact ⟨plain_word _ (by decide), plain_typeText side, hitem, plain_itoa _, plain_itoa _⟩
  have hlen := marketText_length side item quantity unitPrice
  have htext := marketText_eq (typeText side) item quantity unitPrice
  have hc : ';' ∉ unwords ' ' ["MARKET".toList, typeText side, item, itoa quantity,
      itoa unitPrice] := by
    intro h
    rcases mem_unwords h with h | ⟨w, hm, h⟩
    · exact absurd h (by decide)
    · exact (hw w hm).2.1 h
  have h0 : '\x00' ∉ unwords ' ' ["MARKET".toList, typeText side, item, itoa quantity,
      itoa unitPrice] := by
    intro h
    rcases mem_unwords h with h | ⟨w, hm, h⟩
    · exact absurd h (by decide)
    · exact (hw w hm).2.2 h
  have hsize : bufferReadSize = 40 := rfl
  constructor
  · intro h
    by_contra hlong
    -- a blank behind the buffer ends the message
    have hread := readAlone_long hc h0 (by rw [← htext, hlen, hsize]; omega) [' '] (by decide)
      (by decide)
    have hstate := (h [' ']).1
    rw [htext, hread] at hstate
    unfold readFromExc at hstate
    have hsplit : ∀ s : List Char, splitMessage (s ++ [' ']) argv = (none, argv) := by
      intro s
      unfold splitMessage
      rw [if_neg (by simp), if_pos (Or.inr (by simp))]
    rw [hsplit, if_neg (fun e => by simpa using congrArg List.getLast? e)] at hstate
    cases hstate
  · intro hfits behind
    have hread := readAlone_fits hc h0 (by rw [← htext, hlen, hsize]; omega) behind
    rw [← htext] at hread
    rw [hread, readFromExc_market hargv side hitem]
    exact ⟨rfl, processOrder_market side item hq hp _⟩

end Order

/-! ## 3. Every order the exchange accepts -/

/-- What a new order is announced as. -/
theorem write_market (fee : Int → Int) {m : Main} (hargv : m.marketArgv.length = commandArgc)
    {pid t u : Nat} {input text : List Char} {o : Order}
    (h : entryOf m (.command pid input) = .new t o)
    (hw : Event.write u text ∈ (mainStep fee m (.command pid input)).2)
    (hm : "MARKET".toList <+: text) :
    Stated o ∧ text = marketText (typeText o.orderType) o.item o.quantity o.unitPrice := by
  obtain ⟨_, _, tr, argv, -, -, -, -, hmsg, hnew, hstep⟩ := entryOf_eq_new fee h
  obtain ⟨hstated, htype⟩ := newOrder_stated hargv hmsg hnew
  refine ⟨hstated, ?_⟩
  rw [hstep, handleMessage_order hmsg, orderReceived_some hnew, htype] at hw
  -- ACCEPTED and FILL begin with other letters
  have hhead : text.head? = some 'M' := by
    obtain ⟨r, rfl⟩ := hm
    rfl
  rcases List.mem_append.mp hw with hw | hw
  · rcases List.mem_append.mp hw with hw | hw
    · have hA : (acceptedText o.orderId).head? = some 'A' := rfl
      rw [(write_notify.mp hw).2, hA] at hhead
      cases hhead
    · exact (write_broadcast hw).2
  · obtain ⟨d, q, rfl⟩ := write_loop _ hw
    have hF : (fillText d q).head? = some 'F' := rfl
    rw [hF] at hhead
    cases hhead

/-- **A broadcast survives the trip to the trader exactly if its fields leave it room**: side,
    item, quantity and price, as they are printed, have at most 29 characters together. -/
theorem broadcast_recovered (fee : Int → Int) (products : List Word) (pids : List Nat)
    (argv : List Word) (hargv : argv.length = commandArgc) (is : List Input) (pid : Nat)
    (input : List Char) (t u : Nat) (o : Order) (text : List Char) (traderArgv : List Word)
    (htrader : traderArgv.length = commandArgc)
    (haccepted : entryOf (mainRun fee products pids argv is) (.command pid input) = .new t o)
    (hwritten : Event.write u text ∈
      (mainStep fee (mainRun fee products pids argv is) (.command pid input)).2)
    (hmarket : "MARKET".toList <+: text) :
    Recovered traderArgv text ⟨o.orderType, o.item, o.quantity, o.unitPrice⟩ ↔
      (typeText o.orderType).length + o.item.length + (itoa o.quantity).length +
        (itoa o.unitPrice).length ≤ 29 := by
  have hlen := argv_run fee products pids hargv is
  obtain ⟨hstated, rfl⟩ := write_market fee hlen haccepted hwritten hmarket
  exact recovered_iff htrader hstated.item hstated.quantity hstated.unitPrice

/-- A short order. -/
theorem broadcast_recovered_short :
    Recovered (List.replicate 6 []) "MARKET SELL GPU 4 100;".toList ⟨.SELL, "GPU".toList, 4, 100⟩ :=
  (broadcast_recovered (· / 100) ["GPU".toList] [10, 11] (List.replicate 6 []) rfl [] 10
    "SELL 0 GPU 4 100;".toList 0 1 ⟨.SELL, "GPU".toList, 4, 100, 0, 0, -1, false⟩
    "MARKET SELL GPU 4 100;".toList (List.replicate 6 []) rfl (by decide +kernel)
    (by decide +kernel) (by decide +kernel)).mpr (by decide +kernel)

/-- A command of 37 bytes, broadcast as 42: the last digit of the price is lost with the
    terminator. -/
theorem broadcast_truncated :
    let m := mainRun (· / 100) ["GraphicsCard2024".toList] [10, 11] (List.replicate 6 []) []
    let input := "BUY 0 GraphicsCard2024 999999 999999;".toList
    let text := "MARKET BUY GraphicsCard2024 999999 999999;".toList
    input.length ≤ bufferReadSize ∧
    entryOf m (.command 10 input) =
      .new 0 ⟨.BUY, "GraphicsCard2024".toList, 999999, 999999, 0, 0, -1, false⟩ ∧
    Event.write 1 text ∈ (mainStep (· / 100) m (.command 10 input)).2 ∧
    processOrder (readFromExc (readAlone text []) (List.replicate 6 [])).2 =
      some ⟨.BUY, "GraphicsCard2024".toList, 999999, 99999⟩ ∧
    ¬ Recovered (List.replicate 6 []) text ⟨.BUY, "GraphicsCard2024".toList, 999999, 999999⟩ := by
  intro m input text
  have hread : processOrder (readFromExc (readAlone text []) (List.replicate 6 [])).2 =
      some ⟨.BUY, "GraphicsCard2024".toList, 999999, 99999⟩ := by decide +kernel
  refine ⟨by decide +kernel, by decide +kernel, by decide +kernel, hread, fun h => ?_⟩
  have horder := (h []).2
  rw [hread] at horder
  exact absurd horder (by decide +kernel)

end SysProg.Pe
