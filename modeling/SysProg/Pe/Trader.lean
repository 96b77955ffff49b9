/-
  File:      SysProg/Pe/Trader.lean
  Subject:   The automated trader (pe_trader.c): `process_order`,
             `read_from_exc` and one round of main's event loop.

  The switch over the state of a message has one case without a `break` at
  its end: a MARKET message that is neither answered nor ends the loop falls
  through into the case INVALID_MESSAGE and moves `orderID`.

  * `processOrder_market` -- the trader reads an order as it was broadcast;
  * `traderStep_market` -- what it does with it: a quantity from 1000 on ends
    the loop, a SELL is answered, a BUY falls through;
  * `traderStep_valid` -- ACCEPTED and FILL change nothing.
-/
import SysProg.Pe.Exchange

namespace SysProg.Pe

open Lib

/-! ## 1. `process_order` -/

/-- `struct Order` of pe_trader.h; its `order_id` is never set. -/
structure MarketOrder where
  orderType : OrderType
  item : Word
  quantity : Int
  unitPrice : Int
  deriving DecidableEq, Repr

def processOrder (marketArgv : List Word) : Option MarketOrder :=
  if (argAt marketArgv 1 ≠ "BUY".toList ∧ argAt marketArgv 1 ≠ "SELL".toList) ∨
      !isNumeric (argAt marketArgv 3) ∨ !isNumeric (argAt marketArgv 4) then none
  else
    let orderQuantity := atoi (argAt marketArgv 3)
    let unitPrice := atoi (argAt marketArgv 4)
    if orderQuantity ≤ 0 ∨ orderQuantity > maxQuantity then none
    else if unitPrice ≤ 0 ∨ unitPrice > maxUnitPrice then none
    else
      (orderTypeOf (argAt marketArgv 1)).map fun type =>
        { orderType := type
          item := argAt marketArgv 2
          quantity := orderQuantity
          unitPrice := unitPrice }

/-! ## 2. `read_from_exc` -/

inductive TraderState where
  | ORDER_RECEIVED : TraderState
  | INVALID_MESSAGE : TraderState
  | VALID_MESSAGE : TraderState
  | MARKET_OPEN : TraderState
  deriving DecidableEq, Repr

/-- The checks on the words of a message. -/
def checkArguments (argCount : Nat) (marketArgv : List Word) : TraderState :=
  if argAt marketArgv 0 = "MARKET".toList then
    if argCount ≠ 5 then .INVALID_MESSAGE else .ORDER_RECEIVED
  else if argAt marketArgv 0 = "ACCEPTED".toList then
    if argCount ≠ 2 then .INVALID_MESSAGE else .VALID_MESSAGE
  else if argAt marketArgv 0 = "FILL".toList then
    if argCount ≠ 3 then .INVALID_MESSAGE else .VALID_MESSAGE
  else .INVALID_MESSAGE

/-- `read_from_exc`, once it has cut the message at the first `;`. -/
def readFromExc (message : List Char) (marketArgv : List Word) : TraderState × List Word :=
  if message = "MARKET OPEN".toList then (.MARKET_OPEN, marketArgv)
  else
    match splitMessage message marketArgv with
    | (none, argv) => (.INVALID_MESSAGE, argv)
    | (some argCount, argv) => (checkArguments argCount argv, argv)

/-! ## 3. main -/

/-- main's locals that outlive one round; `disconnect` ends the loop. -/
structure PeTrader where
  orderID : Nat
  marketArgv : List Word
  disconnect : Bool
  deriving DecidableEq, Repr

/-- The state before the event loop; the words are whatever `malloc` left. -/
def peTraderInit (marketArgv : List Word) : PeTrader where
  orderID := 0
  marketArgv := marketArgv
  disconnect := false

/-- `"%s %d %s %d %ld;"` with BUY. -/
def buyText (orderID : Nat) (item : Word) (quantity unitPrice : Int) : List Char :=
  "BUY ".toList ++ itoa orderID ++ ' ' :: item ++ ' ' :: itoa quantity ++ ' ' :: itoa unitPrice ++
    [';']

/-- The case INVALID_MESSAGE, and the end of the case ORDER_RECEIVED. -/
def invalidMessage (p : PeTrader) : PeTrader := { p with orderID := p.orderID + 1 }

/-- The switch over the state of a message, with the texts written to the exchange; a signal
    follows each of them. -/
def traderSwitch (p : PeTrader) : TraderState → PeTrader × List (List Char)
  | .ORDER_RECEIVED =>
      match processOrder p.marketArgv with
      | some o =>
          if o.quantity ≥ 1000 then ({ p with disconnect := true }, [])
          else if o.orderType = .SELL then
            ({ p with orderID := p.orderID + 1 },
              [buyText p.orderID o.item o.quantity o.unitPrice])
          else (invalidMessage p, [])
      | none => (invalidMessage p, [])
  | .INVALID_MESSAGE => (invalidMessage p, [])
  | .VALID_MESSAGE => (p, [])
  | .MARKET_OPEN => (p, [])

/-- One round for the message `text`. -/
def traderStep (p : PeTrader) (text : List Char) : PeTrader × List (List Char) :=
  if p.disconnect then (p, [])
  else
    match readFromExc (cutAt ';' text) p.marketArgv with
    | (state, argv) => traderSwitch { p with marketArgv := argv } state

/-! ## 4. The messages of the exchange -/

theorem marketText_eq (type item : Word) (quantity unitPrice : Int) :
    marketText type item quantity unitPrice =
      unwords ' ' ["MARKET".toList, type, item, itoa quantity, itoa unitPrice] ++ [';'] := by
  have hword : "MARKET ".toList = "MARKET".toList ++ [' '] := rfl
  unfold marketText
  rw [hword]
  simp only [unwords, List.append_assoc, List.cons_append, List.nil_append]

theorem acceptedText_eq (orderId : Int) :
    acceptedText orderId = unwords ' ' ["ACCEPTED".toList, itoa orderId] ++ [';'] := by
  have hword : "ACCEPTED ".toList = "ACCEPTED".toList ++ [' '] := rfl
  unfold acceptedText
  rw [hword]
  simp only [unwords, List.append_assoc, List.cons_append, List.nil_append]

theorem fillText_eq (orderId quantity : Int) :
    fillText orderId quantity = unwords ' ' ["FILL".toList, itoa orderId, itoa quantity] ++ [';'] := by
  have hword : "FILL ".toList = "FILL".toList ++ [' '] := rfl
  unfold fillText
  rw [hword]
  simp only [unwords, List.append_assoc, List.cons_append, List.nil_append]

theorem buyText_eq (orderID : Nat) (item : Word) (quantity unitPrice : Int) :
    buyText orderID item quantity unitPrice =
      unwords ' ' ["BUY".toList, itoa orderID, item, itoa quantity, itoa unitPrice] ++ [';'] := by
  have hword : "BUY ".toList = "BUY".toList ++ [' '] := rfl
  unfold buyText
  rw [hword]
  simp only [unwords, List.append_assoc, List.cons_append, List.nil_append]

/-! ## 5. What a round does with them -/

theorem plain_word (w : Word) (h : (w ≠ [] ∧ ' ' ∉ w) ∧ ';' ∉ w ∧ '\x00' ∉ w) : Plain w := h

theorem plain_typeText (s : OrderType) : Plain (typeText s) := by
  cases s <;> exact plain_word _ (by decide)

theorem orderTypeOf_typeText (s : OrderType) : orderTypeOf (typeText s) = some s := by
  cases s <;> decide

/-- What is sent in plain words is not taken for MARKET OPEN. -/
theorem sent_ne_open {ws : List Word} (hw : ∀ w ∈ ws, Plain w)
    (hopen : ws ≠ ["MARKET".toList, "OPEN".toList]) :
    cutAt ';' (unwords ' ' ws ++ [';']) ≠ "MARKET OPEN".toList := by
  rw [cutAt_unwords hw]
  intro h
  have ht := congrArg (tokens ' ') h
  rw [tokens_unwords ws fun w hm => (hw w hm).1] at ht
  exact hopen (ht.trans (by decide))

/-- `read_from_exc` on plain words. -/
theorem readFromExc_sent {ws argv : List Word} (hw : ∀ w ∈ ws, Plain w)
    (hopen : ws ≠ ["MARKET".toList, "OPEN".toList]) (hne : ws ≠ []) (h5 : ws.length ≤ 5)
    (hl : ws.length ≤ argv.length) :
    readFromExc (cutAt ';' (unwords ' ' ws ++ [';'])) argv =
      (checkArguments ws.length (ws ++ argv.drop ws.length), ws ++ argv.drop ws.length) := by
  unfold readFromExc
  rw [if_neg (sent_ne_open hw hopen), splitMessage_sent hw hne h5 hl]

theorem isNumeric_itoa (n : Nat) : isNumeric (itoa n) = true :=
  List.all_eq_true.mpr (itoa_digits n)

/-- A quantity or a price that `newOrder` accepts. -/
def InRange (n : Int) : Prop := 1 ≤ n ∧ n ≤ 999999

/-- Such a number is read back as it was printed. -/
theorem InRange.read_back {n : Int} (h : InRange n) : isNumeric (itoa n) = true ∧ atoi (itoa n) = n := by
  obtain ⟨k, rfl⟩ := Int.eq_ofNat_of_zero_le (Int.le_trans (by decide) h.1)
  have hk : k < 2 ^ 31 := by
    have := h.2
    omega
  exact ⟨isNumeric_itoa k, atoi_itoa hk⟩

/-- **The trader reads an order as the exchange broadcast it.** -/
theorem processOrder_market (s : OrderType) (item : Word) {quantity unitPrice : Int}
    (hq : InRange quantity) (hp : InRange unitPrice) (rest : List Word) :
    processOrder (["MARKET".toList, typeText s, item, itoa quantity, itoa unitPrice] ++ rest) =
      some ⟨s, item, quantity, unitPrice⟩ := by
  obtain ⟨hqn, hqv⟩ := hq.read_back
  obtain ⟨hpn, hpv⟩ := hp.read_back
  have h1 : ¬ (typeText s ≠ "BUY".toList ∧ typeText s ≠ "SELL".toList) := by
    cases s <;> decide
  unfold processOrder
  show (if (typeText s ≠ "BUY".toList ∧ typeText s ≠ "SELL".toList) ∨
    !isNumeric (itoa quantity) ∨ !isNumeric (itoa unitPrice) then none else _) = _
  rw [if_neg (by rw [hqn, hpn]; simpa using h1)]
  show (if atoi (itoa quantity) ≤ 0 ∨ atoi (itoa quantity) > maxQuantity then none
    else if atoi (itoa unitPrice) ≤ 0 ∨ atoi (itoa unitPrice) > maxUnitPrice then none
    else (orderTypeOf (typeText s)).map _) = _
  have hq' := hq.2
  have hp' := hp.2
  rw [hqv, hpv, if_neg (by unfold maxQuantity; have := hq.1; omega),
    if_neg (by unfold maxUnitPrice; have := hp.1; omega), orderTypeOf_typeText]
  show some (MarketOrder.mk s item (atoi (itoa quantity)) (atoi (itoa unitPrice))) = _
  rw [hqv, hpv]

/-- What a cancelled order is broadcast as is no order. -/
theorem processOrder_cancelled (s : OrderType) (item : Word) (rest : List Word) :
    processOrder (["MARKET".toList, typeText s, item, itoa 0, itoa 0] ++ rest) = none := by
  have hzero : atoi (itoa 0) = 0 := atoi_itoa (n := 0) (by decide)
  unfold processOrder
  split
  · rfl
  · show (if atoi (itoa 0) ≤ 0 ∨ atoi (itoa 0) > maxQuantity then none else _) = _
    rw [hzero, if_pos (Or.inl (Int.le_refl 0))]

/-- The words of a broadcast. -/
theorem readFromExc_market {argv : List Word} (hargv : argv.length = commandArgc) (s : OrderType)
    {item : Word} (hitem : Plain item) (quantity unitPrice : Int) :
    readFromExc (cutAt ';' (marketText (typeText s) item quantity unitPrice)) argv =
      (.ORDER_RECEIVED, ["MARKET".toList, typeText s, item, itoa quantity, itoa unitPrice] ++
        argv.drop 5) := by
  have hw : ∀ w ∈ ["MARKET".toList, typeText s, item, itoa quantity, itoa unitPrice], Plain w := by
    simp only [List.forall_mem_cons, List.not_mem_nil, false_implies, implies_true, and_true]
    exact ⟨plain_word _ (by decide), plain_typeText s, hitem, plain_itoa _, plain_itoa _⟩
  have hopen : ["MARKET".toList, typeText s, item, itoa quantity, itoa unitPrice] ≠
      ["MARKET".toList, "OPEN".toList] := fun h => absurd (congrArg List.length h) (by simp)
  have hl : 5 ≤ argv.length := by
    rw [hargv]
    decide
  rw [marketText_eq, readFromExc_sent hw hopen (List.cons_ne_nil _ _) (Nat.le_refl 5) hl]
  rfl

section Round

variable {p : PeTrader} (hrun : p.disconnect = false) (hargv : p.marketArgv.length = commandArgc)

include hrun hargv

/-- **An order is broadcast to the trader**: a quantity from 1000 on ends the loop, a SELL is
    answered, and a BUY moves `orderID`. -/
theorem traderStep_market (s : OrderType) {item : Word} (hitem : Plain item)
    {quantity unitPrice : Int} (hq : InRange quantity) (hp : InRange unitPrice) :
    ∃ argv, argv.length = commandArgc ∧
      traderStep p (marketText (typeText s) item quantity unitPrice) =
        if quantity ≥ 1000 then ({ p with marketArgv := argv, disconnect := true }, [])
        else if s = .SELL then
          ({ p with marketArgv := argv, orderID := p.orderID + 1 },
            [buyText p.orderID item quantity unitPrice])
        else (invalidMessage { p with marketArgv := argv }, []) := by
  refine ⟨["MARKET".toList, typeText s, item, itoa quantity, itoa unitPrice] ++
    p.marketArgv.drop 5, ?_, ?_⟩
  · rw [List.length_append, List.length_drop, hargv]
    rfl
  · unfold traderStep
    rw [if_neg (by rw [hrun]; exact Bool.false_ne_true), readFromExc_market hargv s hitem]
    unfold traderSwitch
    simp only [processOrder_market s item hq hp]

/-- A round on a message of plain words that is only checked. -/
theorem traderStep_checked {ws : List Word} (hw : ∀ w ∈ ws, Plain w)
    (hopen : ws ≠ ["MARKET".toList, "OPEN".toList]) (hne : ws ≠ []) (h5 : ws.length ≤ 5)
    (hvalid : ∀ rest, checkArguments ws.length (ws ++ rest) = .VALID_MESSAGE) :
    ∃ argv, argv.length = commandArgc ∧
      traderStep p (unwords ' ' ws ++ [';']) = ({ p with marketArgv := argv }, []) := by
  have hl : ws.length ≤ p.marketArgv.length := by
    rw [hargv]
    unfold commandArgc
    omega
  refine ⟨ws ++ p.marketArgv.drop ws.length, ?_, ?_⟩
  · rw [List.length_append, List.length_drop, ← hargv]
    omega
  · unfold traderStep
    rw [if_neg (by rw [hrun]; exact Bool.false_ne_true), readFromExc_sent hw hopen hne h5 hl,
      hvalid]
    rfl

/-- ACCEPTED and FILL change nothing but the words. -/
theorem traderStep_valid {text : List Char}
    (h : (∃ i, text = acceptedText i) ∨ ∃ i q, text = fillText i q) :
    ∃ argv, argv.length = commandArgc ∧
      traderStep p text = ({ p with marketArgv := argv }, []) := by
  rcases h with ⟨i, rfl⟩ | ⟨i, q, rfl⟩
  · have hw : ∀ w ∈ ["ACCEPTED".toList, itoa i], Plain w := by
      simp only [List.forall_mem_cons, List.not_mem_nil, false_implies, implies_true, and_true]
      exact ⟨plain_word _ (by decide), plain_itoa _⟩
    rw [acceptedText_eq]
    exact traderStep_checked hrun hargv hw (fun h => by cases h) (List.cons_ne_nil _ _) (by simp)
      fun rest => rfl
  · have hw : ∀ w ∈ ["FILL".toList, itoa i, itoa q], Plain w := by
      simp only [List.forall_mem_cons, List.not_mem_nil, false_implies, implies_true, and_true]
      exact ⟨plain_word _ (by decide), plain_itoa _, plain_itoa _⟩
    rw [fillText_eq]
    exact traderStep_checked hrun hargv hw (fun h => by cases h) (List.cons_ne_nil _ _) (by simp)
      fun rest => rfl

omit hargv in
/-- MARKET OPEN changes nothing. -/
theorem traderStep_open : traderStep p "MARKET OPEN;".toList = (p, []) := by
  have hread : readFromExc (cutAt ';' "MARKET OPEN;".toList) p.marketArgv =
      (.MARKET_OPEN, p.marketArgv) := by
    rw [show cutAt ';' "MARKET OPEN;".toList = "MARKET OPEN".toList by decide]
    rfl
  unfold traderStep
  rw [if_neg (by rw [hrun]; exact Bool.false_ne_true), hread]
  rfl

end Round

end SysProg.Pe
