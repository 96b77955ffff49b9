/-
  File:      SysProg/Pe/Engine.lean
  Subject:   WHAT THE EXCHANGE IS FOR: a price-time engine.

  For each product and side a line of the orders that wait, the best price
  first and the earlier one first among equals. A new order walks along the
  line of the other side while the prices meet, and what is left of it joins
  its own line. The engine knows no order book: an order that is used up or
  withdrawn is gone.

  The second half is the engine the exchange shows: the lines of its open
  orders, and the trades of its log by trader and id.

  * `Engine.answer` -- the engine;
  * `engineOf` -- the engine an exchange shows;
  * `askOf` -- what a step of main asks of the engine.
-/
import SysProg.Lib.Lists
import SysProg.Pe.Arrival

namespace SysProg.Pe

open Lib

/-! ## 1. The engine -/

/-- An order as the traders know it. -/
structure Quote where
  trader : Nat
  orderId : Int
  orderType : OrderType
  item : Word
  quantity : Int
  unitPrice : Int
  deriving DecidableEq, Repr

def Quote.key (o : Quote) : Nat × Int := (o.trader, o.orderId)

/-- The order with another quantity. -/
def Quote.left (o : Quote) (q : Int) : Quote := { o with quantity := q }

@[simp] theorem Quote.left_quantity (o : Quote) (q : Int) : (o.left q).quantity = q := rfl

@[simp] theorem Quote.left_left (o : Quote) (q p : Int) : (o.left q).left p = o.left p := rfl

/-- What changes hands between two orders, and at which price. -/
structure Deal where
  incoming : Nat × Int
  inBook : Nat × Int
  quantity : Int
  unitPrice : Int
  deriving DecidableEq, Repr

/-- The price of `b` meets the limit of `o`. -/
def Quote.Meets (o b : Quote) : Prop :=
  rank b.orderType b.unitPrice ≤ rank b.orderType o.unitPrice

instance (o b : Quote) : Decidable (o.Meets b) := inferInstanceAs (Decidable (_ ≤ _))

/-- Along the line of the other side: the deals, what is left of the order, and the line left. -/
def Quote.walk : Quote → List Quote → List Deal × Quote × List Quote
  | o, [] => ([], o, [])
  | o, b :: bs =>
      if o.quantity ≤ 0 ∨ ¬ o.Meets b then ([], o, b :: bs)
      else if o.quantity < b.quantity then
        ([⟨o.key, b.key, o.quantity, b.unitPrice⟩], o.left 0, b.left (b.quantity - o.quantity) :: bs)
      else
        let rest := walk (o.left (o.quantity - b.quantity)) bs
        (⟨o.key, b.key, b.quantity, b.unitPrice⟩ :: rest.1, rest.2)

section Walk

variable {o b : Quote} (bs : List Quote)

theorem Quote.walk_stop (h : o.quantity ≤ 0 ∨ ¬ o.Meets b) :
    o.walk (b :: bs) = ([], o, b :: bs) := if_pos h

theorem Quote.walk_within (h : ¬ (o.quantity ≤ 0 ∨ ¬ o.Meets b)) (hlt : o.quantity < b.quantity) :
    o.walk (b :: bs) = ([⟨o.key, b.key, o.quantity, b.unitPrice⟩], o.left 0,
      b.left (b.quantity - o.quantity) :: bs) := by
  rw [walk, if_neg h, if_pos hlt]

theorem Quote.walk_past (h : ¬ (o.quantity ≤ 0 ∨ ¬ o.Meets b)) (hle : b.quantity ≤ o.quantity) :
    o.walk (b :: bs) = (⟨o.key, b.key, b.quantity, b.unitPrice⟩ ::
      ((o.left (o.quantity - b.quantity)).walk bs).1, ((o.left (o.quantity - b.quantity)).walk bs).2) := by
  rw [walk, if_neg h, if_neg (Int.not_lt.mpr hle)]

end Walk

/-- A better price, of two orders in one line. -/
def Quote.Ahead (a b : Quote) : Prop :=
  rank a.orderType a.unitPrice < rank b.orderType b.unitPrice

instance : DecidableRel Quote.Ahead := fun _ _ => inferInstanceAs (Decidable (_ < _))

@[ext] structure Engine where
  waiting : OrderType → Word → List Quote
  deals : List Deal

def Engine.empty : Engine := ⟨fun _ _ => [], []⟩

/-- A new order. -/
def Engine.enter (E : Engine) (o : Quote) : Engine :=
  let w := o.walk (E.waiting o.orderType.other o.item)
  { waiting := fun side x =>
      if x ≠ o.item then E.waiting side x
      else if side ≠ o.orderType then w.2.2
      else if w.2.1.quantity ≤ 0 then E.waiting side x
      else (E.waiting side x).orderedInsert Quote.Ahead w.2.1
    deals := E.deals ++ w.1 }

/-- The order leaves its line. -/
def Engine.withdraw (E : Engine) (key : Nat × Int) : Engine :=
  { E with waiting := fun side x => (E.waiting side x).filter fun b => b.key ≠ key }

inductive Ask where
  | enter (o : Quote) : Ask
  | replace (o : Quote) : Ask
  | withdraw (key : Nat × Int) : Ask
  deriving DecidableEq, Repr

/-- An order that replaces the one with its key comes last among its price. -/
def Engine.answer (E : Engine) : Option Ask → Engine
  | none => E
  | some (.enter o) => E.enter o
  | some (.replace o) => (E.withdraw o.key).enter o
  | some (.withdraw key) => E.withdraw key

/-! ## 2. What the exchange shows -/

def quote (o : Order) : Quote :=
  ⟨o.trader, o.orderId, o.orderType, o.item, o.quantity, o.unitPrice⟩

/-- The open orders of a side for a product, in price-time order. -/
def lineOf (side : OrderType) (x : Word) (book : List Order) : List Order :=
  (book.filter fun b => Resting side x b).insertionSort (Precedes side)

/-- A trade, by the keys of its two orders. -/
def dealOf (book : List Order) (y : Trade) : Option Deal :=
  match keyAt book y.incomingOrder, keyAt book y.orderInBook with
  | some incoming, some inBook => some ⟨incoming, inBook, y.transactionQuantity, y.transactionPrice⟩
  | _, _ => none

def engineOf (e : Exchange) : Engine where
  waiting side x := (lineOf side x e.orderbook).map quote
  deals := e.completedTrades.filterMap (dealOf e.orderbook)

/-- The order the message of a trader is to cancel, whether or not it is open. -/
def messageWithdrawal (m : Main) (sender : Nat) (t : Trader) (text : List Char) :
    Option (Nat × Int) :=
  match readMessage (messageOf t text) m.marketArgv m.exchange.products with
  | (.CANCEL_REQUEST, argv) =>
      if isNumeric (argAt argv 1) then some (sender, atoi (argAt argv 1)) else none
  | _ => none

def withdrawal (m : Main) : Input → Option (Nat × Int)
  | .poll _ _ => none
  | .command pid text =>
      if m.exchangeDisconnect then none
      else
        match findTrader m.exchange.traders pid with
        | none => none
        | some sender =>
          match m.exchange.traders[sender]? with
          | none => none
          | some t => messageWithdrawal m sender t text

/-- What a step asks of the engine: the order it accepts, or the one it is to cancel. -/
def askOf (m : Main) (i : Input) : Option Ask :=
  match entryOf m i with
  | .new _ o => some (.enter (quote o))
  | .amended _ _ o => some (.replace (quote o))
  | .none => (withdrawal m i).map .withdraw

/-! ## 3. The lines of a book -/

section Lines

variable {book : List Order} {side : OrderType} {x : Word}

/-- What stands in a line of the book. -/
def InLine (side : OrderType) (x : Word) (book : List Order) (b : Order) : Prop :=
  b ∈ book ∧ Resting side x b

theorem lined_lineOf (hI : Indexed book) (side : OrderType) (x : Word) :
    Lined (Precedes side) (InLine side x book) (lineOf side x book) where
  sorted := List.pairwise_insertionSort _ _
  nodup := (List.perm_insertionSort _ _).nodup_iff.mpr ((nodup_book hI).filter _)
  mem b := by
    unfold lineOf InLine
    rw [List.mem_insertionSort, List.mem_filter, decide_eq_true_eq]

/-- Two orders of a book that precede each other are one. -/
theorem precedes_antisymm (hI : Indexed book) {a b : Order} (ha : a ∈ book) (hb : b ∈ book)
    (hab : Precedes side a b) (hba : Precedes side b a) : a = b := by
  have hi : a.orderIndex = b.orderIndex := by
    unfold Precedes at hab hba
    omega
  have ha' := getElem?_index hI ha
  rw [hi, getElem?_index hI hb] at ha'
  exact (Option.some.inj ha').symm

theorem lineOf_eq (hI : Indexed book) {l : List Order}
    (h : Lined (Precedes side) (InLine side x book) l) : lineOf side x book = l :=
  (lined_lineOf hI side x).unique (fun _ _ ha hb => precedes_antisymm hI ha.1 hb.1) h

/-- **What an order can trade with is the front of a line.** -/
theorem queue_eq_takeWhile (hI : Indexed book) (side : OrderType) (x : Word) (limit : Int) :
    queue side book x limit =
      (lineOf side x book).takeWhile fun b => rank side b.unitPrice ≤ rank side limit := by
  have hq := queued_queue hI side x limit
  have hfront := (lined_lineOf hI side x).takeWhile
    (q := fun b => decide (rank side b.unitPrice ≤ rank side limit)) fun a b hab hb => by
      simp only [decide_eq_true_eq] at hb ⊢
      unfold Precedes at hab
      omega
  refine Lined.unique (fun a b ha hb => precedes_antisymm hI ha.1.1 hb.1.1)
    ⟨hq.sorted, hq.nodup, fun b => ?_⟩ hfront
  rw [hq.mem, decide_eq_true_eq]
  exact and_assoc.symm

/-- Orders at different places. -/
theorem index_ne (hI : Indexed book) {a b : Order} (ha : a ∈ book) (hb : b ∈ book) (hne : a ≠ b) :
    a.orderIndex.toNat ≠ b.orderIndex.toNat := by
  intro h
  have ha' := getElem?_index hI ha
  rw [h, getElem?_index hI hb] at ha'
  exact hne (Option.some.inj ha').symm

end Lines

end SysProg.Pe
