/-
  File:      SysProg/Pe/Exchange.lean
  Subject:   The exchange (pe_exchange.c): `amend`, and main's event loop.

  `Main` holds main's locals that outlive one iteration, among them `order`:
  it is declared inside the loop without an initialiser, only the BUY/SELL
  branch assigns it, and the AMEND branch reads it. It holds here what the
  last BUY/SELL command left in it (`none` for NULL).

  One iteration of the event loop handles at most one signal and then polls
  `waitpid`. The two halves are the two inputs of `mainStep`:
  * `command pid text` -- a signal of the process `pid`; `text` is what
    `read` delivers from the trader's pipe. The descriptors of a trader
    marked disconnected are closed, so nothing is read from it;
  * `poll pid exited` -- the result of `waitpid` (0 or -1 when there is
    nothing to reap) and `WIFEXITED` of its status.

  The trace of a step is the list of its `write` and `kill` calls. What the
  exchange prints on its own standard output is not part of it.
-/
import SysProg.Lib.Run
import SysProg.Pe.Market
import SysProg.Pe.Message

namespace SysProg.Pe

open Lib

/-! ## 1. `amend` -/

/-- The loop of `amend`: the first order of the trader with the id, at or after position `i`,
    decides. The result is its position and the order `newOrder` builds to replace it; `none` is
    the return value 1. -/
def amendLoop (marketArgv : List Word) (trader : Nat) (t : Trader) :
    List Order → Nat → Option (Nat × Order)
  | [], _ => none
  | o :: os, i =>
      if o.orderId = atoi (argAt marketArgv 1) ∧ o.trader = trader then
        if o.completed then none
        else
          match newOrder [typeText o.orderType, argAt marketArgv 1, o.item, argAt marketArgv 2,
              argAt marketArgv 3] trader t (some o.orderType) with
          | some order => some (i, order)
          | none => amendLoop marketArgv trader t os (i + 1)
      else amendLoop marketArgv trader t os (i + 1)

/-- What `amend` finds and builds, before it changes anything. -/
def amendSearch (marketArgv : List Word) (e : Exchange) (trader : Nat) (t : Trader) :
    Option (Nat × Order) :=
  if !isNumeric (argAt marketArgv 1) || !isNumeric (argAt marketArgv 2) ||
      !isNumeric (argAt marketArgv 3) then none
  else
    let newQuantity := atoi (argAt marketArgv 2)
    let newPrice := atoi (argAt marketArgv 3)
    if newQuantity ≤ 0 ∨ newQuantity > maxQuantity then none
    else if newPrice ≤ 0 ∨ newPrice > maxUnitPrice then none
    else amendLoop marketArgv trader t e.orderbook 0

/-- `marketAddOrder`, `traderAmendOrder` and `closeOrder` of the order replaced. -/
def replaceOrder (e : Exchange) (trader i : Nat) (order : Order) : Exchange :=
  let e₁ := marketAddOrder e order
  let e₂ := e₁.onTrader trader (traderAmendOrder e₁.orderbook · e.orderbook.length)
  e₂.onOrder i closeOrder

/-- `amend`; `none` is the return value 1. -/
def amend (marketArgv : List Word) (e : Exchange) (trader : Nat) (t : Trader) : Option Exchange :=
  (amendSearch marketArgv e trader t).map fun found => replaceOrder e trader found.1 found.2

/-! ## 2. What the exchange sends -/

/-- A system call the traders see: `write` to the pipe of trader `trader`, or `kill` with
    SIGUSR1. -/
inductive Event where
  | write (trader : Nat) (text : List Char) : Event
  | kill (pid : Nat) : Event
  deriving DecidableEq, Repr

/-- A `write` and the `kill` that announces it. -/
def notify (trader pid : Nat) (text : List Char) : List Event := [.write trader text, .kill pid]

/-- The broadcast loop: every other trader that is not marked disconnected. -/
def broadcast (traders : List Trader) (sender : Nat) (text : List Char) : List Event :=
  traders.zipIdx.flatMap fun (t, i) =>
    if i ≠ sender ∧ t.disconnected = false then notify i t.traderPid text else []

/-- The two FILL messages of a trade. Both `kill` calls go to the trader of the incoming order. -/
def fillEvents (e : Exchange) (trade : Trade) : List Event :=
  match e.orderbook[trade.incomingOrder]?, e.orderbook[trade.orderInBook]? with
  | some incoming, some inBook =>
    match e.traders[incoming.trader]?, e.traders[inBook.trader]? with
    | some t, some t' =>
        notify incoming.trader t.traderPid (fillText incoming.orderId trade.transactionQuantity) ++
        (if t'.disconnected then []
          else [.write inBook.trader (fillText inBook.orderId trade.transactionQuantity)]) ++
        [.kill t.traderPid]
    | _, _ => []
  | _, _ => []

/-! ## 3. The matching loop -/

/-- `if (type == BUY) placeBuyOrder(..) else if (type == SELL) placeSellOrder(..)` -/
def placeFor (fee : Int → Int) : OrderType → Exchange → Option Nat → Option Trade × Exchange
  | .BUY => placeBuyOrder fee
  | .SELL => placeSellOrder fee

/-- `while (trade != NULL) { ..FILL messages..; trade = place(market, order); }`, at most `n`
    rounds: the trades, the messages, and the state the last call left. Every round closes an
    order, so the length of the book is rounds enough (`tradeLoop_done`). -/
def tradeLoop (fee : Int → Int) (type : OrderType) (order : Option Nat) :
    Nat → Option Trade × Exchange → List Trade × List Event × Exchange
  | _, (none, e) => ([], [], e)
  | 0, (some _, e) => ([], [], e)
  | n + 1, (some trade, e) =>
      let rest := tradeLoop fee type order n (placeFor fee type e order)
      (trade :: rest.1, fillEvents e trade ++ rest.2.1, rest.2.2)

/-! ## 4. main -/

structure Main where
  exchange : Exchange
  marketArgv : List Word
  order : Option Nat
  tradersOnline : Int
  exchangeDisconnect : Bool
  deriving DecidableEq, Repr

/-- The state before the event loop; the words in `market_argv` are whatever `malloc` left. -/
def mainInit (products : List Word) (pids : List Nat) (marketArgv : List Word) : Main where
  exchange := {
    products := products
    traders := pids.map fun pid => instTrader pid products.length
    orderbook := []
    completedTrades := []
    transactionFee := 0 }
  marketArgv := marketArgv
  order := none
  tradersOnline := pids.length
  exchangeDisconnect := false

def findTrader (traders : List Trader) (pid : Nat) : Option Nat :=
  traders.findIdx? fun t => t.traderPid = pid

/-- `order_type` of the BUY/SELL branch. -/
def orderTypeOf (w : Word) : Option OrderType :=
  if w = "SELL".toList then some .SELL else if w = "BUY".toList then some .BUY else none

/-- `marketAddOrder` and `traderAddOrder`. -/
def enterOrder (e : Exchange) (trader : Nat) (order : Order) : Exchange :=
  (marketAddOrder e order).onTrader trader (traderAddOrder · e.orderbook.length)

/-- The case ORDER_RECEIVED. -/
def orderReceived (fee : Int → Int) (m : Main) (argv : List Word) (sender messagePid : Nat)
    (t : Trader) : Main × List Event :=
  match newOrder argv sender t (orderTypeOf (argAt argv 0)) with
  | none => ({ m with marketArgv := argv, order := none }, notify sender messagePid invalidText)
  | some order =>
      let r := m.exchange.orderbook.length
      let e := enterOrder m.exchange sender order
      let loop := tradeLoop fee order.orderType (some r) e.orderbook.length
        (placeFor fee order.orderType e (some r))
      ({ m with exchange := loop.2.2, marketArgv := argv, order := some r },
        notify sender messagePid (acceptedText order.orderId) ++
        broadcast e.traders sender
          (marketText (argAt argv 0) order.item order.quantity order.unitPrice) ++
        loop.2.1)

/-- The case AMEND_REQUEST. The first call places the amended order, the loop places `order`.
    `amended_order` is dereferenced without a check; it is never NULL (`getOrder_replaceOrder`). -/
def amendRequest (fee : Int → Int) (m : Main) (argv : List Word) (sender messagePid : Nat)
    (t : Trader) : Main × List Event :=
  match amend argv m.exchange sender t with
  | none => ({ m with marketArgv := argv }, notify sender messagePid invalidText)
  | some e =>
      match (e.traders[sender]?).bind (getOrder e.orderbook · (atoi (argAt argv 1))) with
      | none =>
          ({ m with exchange := e, marketArgv := argv },
            notify sender messagePid (amendedText (argAt argv 1)))
      | some r =>
        match e.orderbook[r]? with
        | none =>
            ({ m with exchange := e, marketArgv := argv },
              notify sender messagePid (amendedText (argAt argv 1)))
        | some amended =>
            let loop := tradeLoop fee amended.orderType m.order e.orderbook.length
              (placeFor fee amended.orderType e (some r))
            ({ m with exchange := loop.2.2, marketArgv := argv },
              notify sender messagePid (amendedText (argAt argv 1)) ++
              broadcast e.traders sender
                (marketText (typeText amended.orderType) amended.item amended.quantity
                  amended.unitPrice) ++
              loop.2.1)

/-- The case CANCEL_REQUEST; its `order` is a variable of its own. -/
def cancelRequest (m : Main) (argv : List Word) (sender messagePid : Nat) (t : Trader) :
    Main × List Event :=
  if !isNumeric (argAt argv 1) then
    ({ m with marketArgv := argv }, notify sender messagePid invalidText)
  else
    let orderId := atoi (argAt argv 1)
    match getOrder m.exchange.orderbook t orderId with
    | none => ({ m with marketArgv := argv }, notify sender messagePid invalidText)
    | some r =>
      match m.exchange.orderbook[r]? with
      | none => ({ m with marketArgv := argv }, notify sender messagePid invalidText)
      | some o =>
          if o.completed then
            ({ m with marketArgv := argv }, notify sender messagePid invalidText)
          else
            ({ m with exchange := m.exchange.onOrder r closeOrder, marketArgv := argv },
              notify sender messagePid (cancelledText orderId) ++
              broadcast m.exchange.traders sender (marketText (typeText o.orderType) o.item 0 0))

/-- What `read_message` sees of the text read from trader `t`. -/
def messageOf (t : Trader) (text : List Char) : List Char :=
  if t.disconnected then [] else cutAt ';' text

/-- The switch over the state of a message. -/
def handleMessage (fee : Int → Int) (m : Main) (sender messagePid : Nat) (t : Trader)
    (text : List Char) : Main × List Event :=
  match readMessage (messageOf t text) m.marketArgv m.exchange.products with
  | (.ORDER_RECEIVED, argv) => orderReceived fee m argv sender messagePid t
  | (.AMEND_REQUEST, argv) => amendRequest fee m argv sender messagePid t
  | (.CANCEL_REQUEST, argv) => cancelRequest m argv sender messagePid t
  | (.INVALID_MESSAGE, argv) =>
      ({ m with marketArgv := argv }, notify sender messagePid invalidText)

/-- The end of an iteration: every trader with the pid returned is marked. -/
def pollTraders (m : Main) (pid : Int) (exited : Bool) : Main :=
  let m₁ : Main :=
    if exited then
      { m with
        exchange := { m.exchange with
          traders := m.exchange.traders.map fun t =>
            if (t.traderPid : Int) = pid then { t with disconnected := true } else t }
        tradersOnline := m.tradersOnline -
          m.exchange.traders.countP fun t => (t.traderPid : Int) = pid }
    else m
  { m₁ with exchangeDisconnect := decide (m₁.tradersOnline = 0) }

inductive Input where
  | command (pid : Nat) (text : List Char) : Input
  | poll (pid : Int) (exited : Bool) : Input
  deriving DecidableEq, Repr

/-- One half of an iteration of the event loop, with its trace. A signal of a process that is
    no trader crashes the source at `incoming_trader->fd_r`; it is left out. -/
def mainStep (fee : Int → Int) (m : Main) : Input → Main × List Event
  | .command pid text =>
      if m.exchangeDisconnect then (m, [])
      else
        match findTrader m.exchange.traders pid with
        | none => (m, [])
        | some sender =>
          match m.exchange.traders[sender]? with
          | none => (m, [])
          | some t => handleMessage fee m sender pid t text
  | .poll pid exited =>
      if m.exchangeDisconnect then (m, []) else (pollTraders m pid exited, [])

/-- The state after a step. -/
def mainNext (fee : Int → Int) (m : Main) (i : Input) : Main := (mainStep fee m i).1

/-- The state a list of inputs leads to. -/
def mainRun (fee : Int → Int) (products : List Word) (pids : List Nat) (marketArgv : List Word)
    (is : List Input) : Main :=
  run (mainNext fee) (mainInit products pids marketArgv) is

end SysProg.Pe
