/-
  File:      SysProg/Pe/Order.lean
  Subject:   Orders and traders of the exchange (pe_mytrader.h, pe_order.c,
             pe_mytrader.c).

  Every order the exchange keeps is in `orderbook`, and no order ever leaves
  it. An `Order*` is therefore the position of the order in the book, and a
  `Trader*` the position of the trader in main's table `traders`, which is
  also its `trader_id`. The counters `order_count` are the lengths of the
  lists they count. Allocation is taken to succeed. The fields `name`,
  `exc2trader`, `trader2exc`, `fd_w` and `fd_r` name a trader's pipes; the
  position of the trader stands for them.
-/
import SysProg.Lib.CString

namespace SysProg.Pe

open Lib

/-- An argument of a command. -/
abbrev Word := List Char

def maxQuantity : Int := 999999
def maxUnitPrice : Int := 999999

/-! ## 1. Data (pe_mytrader.h) -/

inductive OrderType where
  | BUY : OrderType
  | SELL : OrderType
  deriving DecidableEq, Repr

/-- The other side of the market. -/
def OrderType.other : OrderType → OrderType
  | .BUY => .SELL
  | .SELL => .BUY

@[simp] theorem OrderType.other_other (s : OrderType) : s.other.other = s := by cases s <;> rfl

theorem OrderType.other_ne (s : OrderType) : s.other ≠ s := by cases s <;> decide

theorem OrderType.eq_other_of_ne {s t : OrderType} (h : s ≠ t) : s = t.other := by
  cases s <;> cases t <;> first | rfl | exact absurd rfl h

structure Order where
  orderType : OrderType
  item : Word
  quantity : Int
  unitPrice : Int
  trader : Nat
  orderId : Int
  orderIndex : Int
  completed : Bool
  deriving DecidableEq, Repr

structure Trader where
  traderPid : Nat
  /-- C ints, and `long long`s in `bank`; how long they fit their types is in Range.lean. -/
  inventoryQuantity : List Int
  bank : List Int
  orders : List Nat
  disconnected : Bool
  deriving DecidableEq, Repr

/-- `trader->order_count`. -/
def Trader.orderCount (t : Trader) : Nat := t.orders.length

/-! ## 2. pe_order.c -/

def isNumeric (str : Word) : Bool := str.all isdigit

/-- `market_argv[k]`. -/
def argAt (marketArgv : List Word) (k : Nat) : Word := marketArgv[k]?.getD []

/-- `newOrder`; `none` for `order_type` is the source's -1. -/
def newOrder (marketArgv : List Word) (trader : Nat) (t : Trader) (orderType : Option OrderType) :
    Option Order :=
  match orderType with
  | none => none
  | some type =>
      if !isNumeric (argAt marketArgv 1) || !isNumeric (argAt marketArgv 3) ||
          !isNumeric (argAt marketArgv 4) then none
      else
        let orderId := atoi (argAt marketArgv 1)
        let orderQuantity := atoi (argAt marketArgv 3)
        let unitPrice := atoi (argAt marketArgv 4)
        if orderId > t.orderCount then none
        else if orderQuantity ≤ 0 ∨ orderQuantity > maxQuantity then none
        else if unitPrice ≤ 0 ∨ unitPrice > maxUnitPrice then none
        else some {
          orderType := type
          item := argAt marketArgv 2
          quantity := orderQuantity
          unitPrice := unitPrice
          trader := trader
          orderId := orderId
          orderIndex := -1
          completed := false }

def closeOrder (o : Order) : Order := { o with completed := true }

def adjustAmount (amount : Int) (o : Order) : Order := { o with quantity := o.quantity - amount }

/-- **What `newOrder` accepts, and the order it builds.** -/
theorem newOrder_eq_some {argv : List Word} {trader : Nat} {t : Trader} {ty : Option OrderType}
    {o : Order} : newOrder argv trader t ty = some o ↔
      ∃ s, ty = some s ∧ isNumeric (argAt argv 1) = true ∧ isNumeric (argAt argv 3) = true ∧
        isNumeric (argAt argv 4) = true ∧ atoi (argAt argv 1) ≤ t.orderCount ∧
        1 ≤ atoi (argAt argv 3) ∧ atoi (argAt argv 3) ≤ maxQuantity ∧
        1 ≤ atoi (argAt argv 4) ∧ atoi (argAt argv 4) ≤ maxUnitPrice ∧
        o = ⟨s, argAt argv 2, atoi (argAt argv 3), atoi (argAt argv 4), trader,
          atoi (argAt argv 1), -1, false⟩ := by
  cases ty with
  | none => simp [newOrder]
  | some s =>
      unfold newOrder
      by_cases hn : isNumeric (argAt argv 1) = true ∧ isNumeric (argAt argv 3) = true ∧
          isNumeric (argAt argv 4) = true
      · obtain ⟨h1, h3, h4⟩ := hn
        simp only [h1, h3, h4, Bool.not_true, Bool.or_self, Bool.false_eq_true, if_false,
          Option.some.injEq, exists_eq_left', true_and]
        by_cases hid : atoi (argAt argv 1) > t.orderCount
        · rw [if_pos hid]
          constructor
          · intro h; cases h
          · intro h; omega
        · rw [if_neg hid]
          by_cases hq : atoi (argAt argv 3) ≤ 0 ∨ atoi (argAt argv 3) > maxQuantity
          · rw [if_pos hq]
            constructor
            · intro h; cases h
            · intro h; omega
          · rw [if_neg hq]
            by_cases hp : atoi (argAt argv 4) ≤ 0 ∨ atoi (argAt argv 4) > maxUnitPrice
            · rw [if_pos hp]
              constructor
              · intro h; cases h
              · intro h; omega
            · rw [if_neg hp, Option.some.injEq]
              constructor
              · intro h
                exact ⟨by omega, by omega, by omega, by omega, by omega, h.symm⟩
              · intro h
                obtain ⟨-, -, -, -, -, h⟩ := h
                exact h.symm
      · have hc : (!isNumeric (argAt argv 1) || !isNumeric (argAt argv 3) ||
            !isNumeric (argAt argv 4)) = true := by
          simp only [Bool.or_eq_true, Bool.not_eq_eq_eq_not, Bool.not_true]
          by_contra hcon
          exact hn (by simp_all)
        simp only [hc, if_true]
        constructor
        · intro h; cases h
        · intro h
          obtain ⟨_, _, h1, h3, h4, _⟩ := h
          exact absurd ⟨h1, h3, h4⟩ hn

/-! ## 3. pe_mytrader.c -/

/-- `inst_trader`; `trader_pid` is set by main after the fork. -/
def instTrader (traderPid productCount : Nat) : Trader where
  traderPid := traderPid
  inventoryQuantity := List.replicate productCount 0
  bank := List.replicate productCount 0
  orders := []
  disconnected := false

def traderAddOrder (t : Trader) (order : Nat) : Trader := { t with orders := t.orders ++ [order] }

/-- `order->order_id` through a pointer into the book. -/
def idAt (orderbook : List Order) (r : Nat) : Option Int := orderbook[r]?.map (·.orderId)

/-- `traderAmendOrder`: every entry with the id of `order` now points to `order`. -/
def traderAmendOrder (orderbook : List Order) (t : Trader) (order : Nat) : Trader :=
  { t with orders := t.orders.map fun r => if idAt orderbook r = idAt orderbook order then order else r }

/-- `getOrder`: the first entry with the id. -/
def getOrder (orderbook : List Order) (t : Trader) (orderId : Int) : Option Nat :=
  t.orders.find? fun r => idAt orderbook r = some orderId

/-- The common body of `buy` and `sell`: the first product of the list with that name moves. -/
def movePosition (inventoryProducts : List Word) (t : Trader) (product : Word)
    (quantity value : Int) : Option Trader :=
  match inventoryProducts.findIdx? (· = product) with
  | some i => some { t with
      inventoryQuantity := t.inventoryQuantity.modify i (· + quantity)
      bank := t.bank.modify i (· + value) }
  | none => none

/-- `buy`; `none` is the return value 1. -/
def buy (inventoryProducts : List Word) (t : Trader) (product : Word) (quantity buyPrice : Int) :
    Option Trader :=
  movePosition inventoryProducts t product quantity (-(buyPrice * quantity))

/-- `sell`; `none` is the return value 1. -/
def sell (inventoryProducts : List Word) (t : Trader) (product : Word) (quantity sellPrice : Int) :
    Option Trader :=
  movePosition inventoryProducts t product (-quantity) (sellPrice * quantity)

/-- `tax`: unlike `buy` and `sell` it does not stop at the first product with the name. -/
def tax (inventoryProducts : List Word) (t : Trader) (taxAmount : Int) (product : Word) : Trader :=
  { t with bank := t.bank.mapIdx fun i v =>
      if inventoryProducts[i]? = some product then v - taxAmount else v }

end SysProg.Pe
