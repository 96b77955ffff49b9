/-
  File:      SysProg/Pe/Market.lean
  Subject:   The market (pe_market.h, pe_market.c): the order book, the
             sorts, the search for the best counter order, one match.

  `Exchange` is everything main's pointers reach: the product list, the
  traders and the `Market`. `placeBuyOrder` and `placeSellOrder` are two
  copies of one body with the sides exchanged; so are the two searches and
  the two sorts. Each is the shared body at its own values.

  The fee of a trade is `roundl(quantity * price * 0.01)`. Floating point is
  not modelled: the fee is an arbitrary integer function `fee` of the value
  `quantity * price`, which is all either copy passes to `roundl`.
-/
import SysProg.Lib.ExchangeSort
import SysProg.Pe.Order

namespace SysProg.Pe

open Lib

/-! ## 1. Data (pe_market.h) -/

/-- A trade; `incomingOrder` and `orderInBook` are positions in the book. -/
structure Trade where
  incomingOrder : Nat
  orderInBook : Nat
  transactionQuantity : Int
  transactionPrice : Int
  tax : Int
  deriving DecidableEq, Repr

/-- The product list, the traders and the market. -/
structure Exchange where
  products : List Word
  traders : List Trader
  orderbook : List Order
  completedTrades : List Trade
  transactionFee : Int
  deriving DecidableEq, Repr

/-! ## 2. The book -/

/-- `marketAddOrder`. -/
def marketAddOrder (e : Exchange) (order : Order) : Exchange :=
  { e with orderbook := e.orderbook ++ [{ order with orderIndex := e.orderbook.length }] }

/-- `addTrade`. -/
def addTrade (e : Exchange) (trade : Trade) : Exchange :=
  { e with completedTrades := e.completedTrades ++ [trade] }

/-- `f` applied to the order a pointer into the book points to. -/
def Exchange.onOrder (e : Exchange) (r : Nat) (f : Order → Order) : Exchange :=
  { e with orderbook := e.orderbook.modify r f }

/-- `f` applied to the trader a pointer points to. -/
def Exchange.onTrader (e : Exchange) (t : Nat) (f : Trader → Trader) : Exchange :=
  { e with traders := e.traders.modify t f }

/-- `buy` or `sell` through a trader pointer; `none` is the return value 1. -/
def Exchange.deal (move : List Word → Trader → Word → Int → Int → Option Trader) (e : Exchange)
    (t : Nat) (product : Word) (quantity price : Int) : Option Exchange :=
  match e.traders[t]? with
  | none => none
  | some trader =>
      (move e.products trader product quantity price).map fun trader' =>
        { e with traders := e.traders.set t trader' }

/-! ## 3. The sorts -/

def orderSort (order : List Order) : List Order :=
  exchangeSort (fun x y => decide (x.unitPrice > y.unitPrice)) order

def orderSortReverse (order : List Order) : List Order :=
  exchangeSort (fun x y => decide (x.unitPrice < y.unitPrice)) order

/-! ## 4. The best counter order -/

/-- The filter loop: the open orders of one side for one product, in book order. -/
def matchedOrders (side : OrderType) (orderBook : List Order) (product : Word) : List Order :=
  orderBook.filter fun o => o.item = product && o.orderType = side && !o.completed

/-- The second search: the first open order of that side with the trader and the id of `o`.
    It looks at neither the product nor the price. -/
def findAgain (side : OrderType) (orderBook : List Order) (o : Order) : Option Nat :=
  orderBook.findIdx? fun b =>
    b.trader = o.trader && b.orderId = o.orderId && b.orderType = side && !b.completed

/-- The loop over the sorted candidates. -/
def scanMatched (side : OrderType) (orderBook : List Order) (good : Order → Bool) :
    List Order → Option Nat
  | [] => none
  | o :: os =>
      if good o then
        match findAgain side orderBook o with
        | some i => some i
        | none => scanMatched side orderBook good os
      else scanMatched side orderBook good os

def getBestBuyOrder (orderBook : List Order) (product : Word) (sellPrice : Int) : Option Nat :=
  scanMatched .BUY orderBook (fun o => decide (o.unitPrice ≥ sellPrice))
    (orderSortReverse (matchedOrders .BUY orderBook product))

def getBestSellOrder (orderBook : List Order) (product : Word) (buyPrice : Int) : Option Nat :=
  scanMatched .SELL orderBook (fun o => decide (o.unitPrice ≤ buyPrice))
    (orderSort (matchedOrders .SELL orderBook product))

/-! ## 5. One match -/

/-- `if (order->quantity <= 0) closeOrder(order);` -/
def closeIfEmpty (o : Order) : Order := if o.quantity ≤ 0 then closeOrder o else o

/-- The body `placeBuyOrder` and `placeSellOrder` share. `wrongSide` is the type of order the
    function refuses, `best` its search, `moveIn` and `moveBook` what it calls for the trader of
    the incoming order and of the order in the book. The trade returned is the one recorded; the
    two early returns after `addTrade` leave it recorded without a fee. -/
def placeOrder (fee : Int → Int) (wrongSide : OrderType)
    (best : List Order → Word → Int → Option Nat)
    (moveIn moveBook : List Word → Trader → Word → Int → Int → Option Trader)
    (e : Exchange) (order : Option Nat) : Option Trade × Exchange :=
  match order with
  | none => (none, e)
  | some r =>
    match e.orderbook[r]? with
    | none => (none, e)
    | some o =>
      if o.orderType = wrongSide ∨ o.completed = true then (none, e)
      else
        match best e.orderbook o.item o.unitPrice with
        | none => (none, e)
        | some b =>
          match e.orderbook[b]? with
          | none => (none, e)
          | some bestOrder =>
            if o.quantity ≤ 0 ∨ bestOrder.quantity ≤ 0 then (none, e)
            else
              let amount := if o.quantity > bestOrder.quantity then bestOrder.quantity else o.quantity
              let price := bestOrder.unitPrice
              let e₁ := addTrade e ⟨r, b, amount, price, 0⟩
              let e₂ := (e₁.onOrder b (adjustAmount amount)).onOrder r (adjustAmount amount)
              match e₂.deal moveIn o.trader o.item amount price with
              | none => (none, e₂)
              | some e₃ =>
                match e₃.deal moveBook bestOrder.trader bestOrder.item amount price with
                | none => (none, e₃)
                | some e₄ =>
                  let transactionTax := fee (amount * price)
                  let trade : Trade := ⟨r, b, amount, price, transactionTax⟩
                  let e₅ := { e₄ with completedTrades := e.completedTrades ++ [trade] }
                  let e₆ :=
                    if o.orderIndex > bestOrder.orderIndex then
                      e₅.onTrader o.trader (tax e.products · transactionTax o.item)
                    else if o.orderIndex < bestOrder.orderIndex then
                      e₅.onTrader bestOrder.trader (tax e.products · transactionTax bestOrder.item)
                    else e₅
                  let e₇ := { e₆ with transactionFee := e₆.transactionFee + transactionTax }
                  (some trade, (e₇.onOrder b closeIfEmpty).onOrder r closeIfEmpty)

def placeBuyOrder (fee : Int → Int) (e : Exchange) (buyOrder : Option Nat) : Option Trade × Exchange :=
  placeOrder fee .SELL getBestSellOrder buy sell e buyOrder

def placeSellOrder (fee : Int → Int) (e : Exchange) (sellOrder : Option Nat) :
    Option Trade × Exchange :=
  placeOrder fee .BUY getBestBuyOrder sell buy e sellOrder

end SysProg.Pe
