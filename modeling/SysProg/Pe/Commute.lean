/-
  File:      SysProg/Pe/Commute.lean
  Subject:   ORDERS OF TWO TRADERS FOR TWO PRODUCTS COMMUTE.

  Two commands are processed in either order. The two new orders then stand
  in the book at exchanged positions, with exchanged `order_index`, and the
  trades name them so. Everything else is the same: the messages, the trades,
  the positions, the fee and what is left of every order. The order that came
  later pays the fee, and which of two orders of a trade came later is the
  same in both runs, as the two new ones never trade with each other.

  * `Renumbered` -- two states that differ in the numbering of orders only;
  * `positions_renumbered` -- the ledger does not see the numbering;
  * `second_book`, `second_log`, `second_answer` -- the second of two orders;
  * `commands_commute` -- from every state of a run that numbers its orders.
-/
import Mathlib.Algebra.BigOperators.Group.List.Basic
import Mathlib.Logic.Equiv.Basic
import SysProg.Pe.Arrival
import SysProg.Pe.Ledger

namespace SysProg.Pe

open Lib

/-! ## 1. The same state up to numbering -/

/-- An order without its number. -/
def Order.noIndex (o : Order) : Order := { o with orderIndex := 0 }

/-- `e'` is `e` with the orders numbered by `ρ`: book, trades (as a multiset), inventory and bank
    of every trader, and the fee total. -/
structure Renumbered (ρ : Equiv.Perm Nat) (e e' : Exchange) : Prop where
  book : ∀ k : Nat, (e'.orderbook[ρ k]?).map Order.noIndex = (e.orderbook[k]?).map Order.noIndex
  trades : e'.completedTrades.Perm (e.completedTrades.map (Trade.renumber ρ))
  positions : e'.traders.map (fun t => (t.inventoryQuantity, t.bank)) =
    e.traders.map fun t => (t.inventoryQuantity, t.bank)
  fees : e'.transactionFee = e.transactionFee

/-- The two commands may be exchanged: the messages of each are those it has from `m` on its own,
    and the states differ in the numbers of orders that are not in `m`. -/
structure Commutes (fee : Int → Int) (m : Main) (i j : Input) : Prop where
  answer : (mainStep fee (mainNext fee m j) i).2 = (mainStep fee m i).2
  answer' : (mainStep fee (mainNext fee m i) j).2 = (mainStep fee m j).2
  states : ∃ ρ : Equiv.Perm Nat, (∀ k < m.exchange.orderbook.length, ρ k = k) ∧
    Renumbered ρ (mainNext fee (mainNext fee m i) j).exchange
      (mainNext fee (mainNext fee m j) i).exchange

theorem renumber_refl (y : Trade) : y.renumber (Equiv.refl Nat) = y := rfl

theorem renumbered_refl (e : Exchange) : Renumbered (Equiv.refl Nat) e e := by
  refine ⟨fun _ => rfl, ?_, rfl, rfl⟩
  rw [List.map_congr_left fun y _ => renumber_refl y, List.map_id']

/-- States that are equal commute. -/
theorem commutes_of_eq {fee : Int → Int} {m : Main} {i j : Input}
    (hi : (mainStep fee (mainNext fee m j) i).2 = (mainStep fee m i).2)
    (hj : (mainStep fee (mainNext fee m i) j).2 = (mainStep fee m j).2)
    (he : (mainNext fee (mainNext fee m i) j).exchange = (mainNext fee (mainNext fee m j) i).exchange) :
    Commutes fee m i j :=
  ⟨hi, hj, Equiv.refl Nat, fun _ _ => rfl, he ▸ renumbered_refl _⟩

/-! ## 2. The ledger does not see the numbering -/

section Positions

variable {ρ : Equiv.Perm Nat} {e e' : Exchange}

/-- What is left of an order without its number. -/
theorem noIndex_eq_iff {o o' : Order} : o'.noIndex = o.noIndex ↔ o'.orderType = o.orderType ∧
    o'.item = o.item ∧ o'.quantity = o.quantity ∧ o'.unitPrice = o.unitPrice ∧
    o'.trader = o.trader ∧ o'.orderId = o.orderId ∧ o'.completed = o.completed := by
  simp [Order.noIndex]

/-- The order picked of a trade is the same one under both numberings. -/
def PicksSame (pick : Order → Order → Order) (ρ : Equiv.Perm Nat) (ob ob' : List Order)
    (ts : List Trade) : Prop :=
  ∀ y ∈ ts, ∀ o b o' b', ob[y.incomingOrder]? = some o → ob[y.orderInBook]? = some b →
    ob'[ρ y.incomingOrder]? = some o' → ob'[ρ y.orderInBook]? = some b' →
    o'.noIndex = o.noIndex → b'.noIndex = b.noIndex → (pick o' b').noIndex = (pick o b).noIndex

theorem picksSame_ofSide (side : OrderType) (ob ob' : List Order) (ts : List Trade) :
    PicksSame (ofSide side) ρ ob ob' ts := by
  intro y _ o b o' b' _ _ _ _ ho hb
  unfold ofSide
  rw [(noIndex_eq_iff.mp ho).1]
  split
  · exact ho
  · exact hb

/-- The later order pays: the numbering has to keep which of the two that is. -/
theorem picksSame_payer (hS : Sound e) (hS' : Sound e') {ts : List Trade}
    (hlater : ∀ y ∈ ts, ρ y.orderInBook < ρ y.incomingOrder ↔ y.orderInBook < y.incomingOrder) :
    PicksSame payer ρ e.orderbook e'.orderbook ts := by
  intro y hy o b o' b' ho hb ho' hb' hno hnb
  have hiff : o'.orderIndex > b'.orderIndex ↔ o.orderIndex > b.orderIndex := by
    rw [hS.index _ o ho, hS.index _ b hb, hS'.index _ o' ho', hS'.index _ b' hb']
    have := hlater y hy
    omega
  unfold payer
  by_cases hgt : o.orderIndex > b.orderIndex
  · rw [if_pos hgt, if_pos (hiff.mpr hgt)]
    exact hno
  · rw [if_neg hgt, if_neg fun h => hgt (hiff.mp h)]
    exact hnb

theorem sumOver_renumber {pick : Order → Order → Order} {ob ob' : List Order} {ts ts' : List Trade}
    (hbook : ∀ k : Nat, (ob'[ρ k]?).map Order.noIndex = (ob[k]?).map Order.noIndex)
    (hts : ts'.Perm (ts.map (Trade.renumber ρ))) (hpick : PicksSame pick ρ ob ob' ts)
    {f : Trade → Int} (hf : ∀ y : Trade, f (y.renumber ρ) = f y) (t : Nat) (x : Word) :
    sumOver pick ob' t x f ts' = sumOver pick ob t x f ts := by
  unfold sumOver
  rw [(hts.map _).sum_eq, List.map_map]
  refine congrArg List.sum (List.map_congr_left fun y hy => ?_)
  have hin := hbook y.incomingOrder
  have hinBook := hbook y.orderInBook
  simp only [Function.comp_apply, Trade.renumber]
  cases ho : ob[y.incomingOrder]? with
  | none =>
      rw [ho, Option.map_none, Option.map_eq_none_iff] at hin
      rw [hin]
  | some o =>
      rw [ho, Option.map_some] at hin
      obtain ⟨o', ho', hno⟩ := Option.map_eq_some_iff.mp hin
      rw [ho']
      cases hb : ob[y.orderInBook]? with
      | none =>
          rw [hb, Option.map_none, Option.map_eq_none_iff] at hinBook
          rw [hinBook]
      | some b =>
          rw [hb, Option.map_some] at hinBook
          obtain ⟨b', hb', hnb⟩ := Option.map_eq_some_iff.mp hinBook
          obtain ⟨-, hitem, -, -, htrader, -, -⟩ :=
            noIndex_eq_iff.mp (hpick y hy o b o' b' ho hb ho' hb' hno hnb)
          rw [hb']
          simp only [htrader, hitem]
          split
          · exact hf y
          · rfl

/-- **Positions and fees are those of the log, whatever the numbers of its orders.** -/
theorem positions_renumbered (hS : Sound e) (hS' : Sound e') (hL : Ledger e) (hL' : Ledger e')
    (hp : e'.products = e.products) (hlen : e'.traders.length = e.traders.length)
    (hbook : ∀ k : Nat,
      (e'.orderbook[ρ k]?).map Order.noIndex = (e.orderbook[k]?).map Order.noIndex)
    (hts : e'.completedTrades.Perm (e.completedTrades.map (Trade.renumber ρ)))
    (hlater : ∀ y ∈ e.completedTrades,
      ρ y.orderInBook < ρ y.incomingOrder ↔ y.orderInBook < y.incomingOrder) :
    Renumbered ρ e e' := by
  have hquantity : ∀ t x, ledgerQuantity e' t x = ledgerQuantity e t x := by
    intro t x
    unfold ledgerQuantity
    rw [sumOver_renumber hbook hts (picksSame_ofSide .BUY _ _ _) (fun _ => rfl),
      sumOver_renumber hbook hts (picksSame_ofSide .SELL _ _ _) (fun _ => rfl)]
  have hbank : ∀ t x, ledgerBank e' t x = ledgerBank e t x := by
    intro t x
    unfold ledgerBank
    rw [sumOver_renumber hbook hts (picksSame_ofSide .SELL _ _ _) (fun _ => rfl),
      sumOver_renumber hbook hts (picksSame_ofSide .BUY _ _ _) (fun _ => rfl),
      sumOver_renumber hbook hts (picksSame_payer hS hS' hlater) (fun _ => rfl)]
  refine ⟨hbook, hts, List.ext_getElem?' fun t ht => ?_, ?_⟩
  · rw [List.length_map, List.length_map, hlen, Nat.max_self] at ht
    have htr := List.getElem?_eq_getElem ht
    have htr' := List.getElem?_eq_getElem (show t < e'.traders.length by omega)
    obtain ⟨hw, hv⟩ := hS.width t _ htr
    obtain ⟨hw', hv'⟩ := hS'.width t _ htr'
    rw [List.getElem?_map, List.getElem?_map, htr, htr']
    refine congrArg some (Prod.ext (List.ext_getElem?' fun i hi => ?_)
      (List.ext_getElem?' fun i hi => ?_))
    · rw [hw, hw', hp, Nat.max_self] at hi
      have hx := List.getElem?_eq_getElem hi
      have h := hL.quantity t i _ ht hx
      have h' := hL'.quantity t i _ (by omega) (by rw [hp]; exact hx)
      rw [pieces, htr, Option.bind_some] at h
      rw [pieces, htr', Option.bind_some, hquantity] at h'
      exact h'.trans h.symm
    · rw [hv, hv', hp, Nat.max_self] at hi
      have hx := List.getElem?_eq_getElem hi
      have h := hL.bank t i _ ht hx
      have h' := hL'.bank t i _ (by omega) (by rw [hp]; exact hx)
      rw [dollars, htr, Option.bind_some] at h
      rw [dollars, htr', Option.bind_some, hbank] at h'
      exact h'.trans h.symm
  · rw [hL.fees, hL'.fees, (hts.map _).sum_eq, List.map_map]
    rfl

end Positions

/-! ## 3. The numbers of two new orders -/

/-- The two numbers after those of a book of `n` orders, exchanged. -/
def swapNew (n : Nat) : Equiv.Perm Nat := Equiv.swap n (n + 1)

theorem swapNew_old {n k : Nat} (hk : k < n) : swapNew n k = k :=
  Equiv.swap_apply_of_ne_of_ne (by omega) (by omega)

theorem swapNew_first (n : Nat) : swapNew n n = n + 1 := Equiv.swap_apply_left _ _

theorem swapNew_second (n : Nat) : swapNew n (n + 1) = n := Equiv.swap_apply_right _ _

theorem swapNew_behind {n k : Nat} (hk : n + 1 < k) : swapNew n k = k :=
  Equiv.swap_apply_of_ne_of_ne (by omega) (by omega)

section Numbers

variable {book : List Order} (hI : Indexed book) (fee : Int → Int) (o : Order)

include hI

theorem arrivalTrades_first : arrivalTrades fee (book.length + 1) book o =
    (arrivalTrades fee book.length book o).map (Trade.renumber (swapNew book.length)) := by
  rw [← arrivalTrades_renumber hI fun k hk => swapNew_old hk, swapNew_first]

theorem arrivalTrades_second : arrivalTrades fee book.length book o =
    (arrivalTrades fee (book.length + 1) book o).map (Trade.renumber (swapNew book.length)) := by
  rw [← arrivalTrades_renumber hI fun k hk => swapNew_old hk, swapNew_second]

/-- What an order of the book trades with a new one does not depend on the number of that. -/
theorem tradedQuantity_old {k : Nat} (hk : k < book.length) :
    tradedQuantity k (arrivalTrades fee (book.length + 1) book o) =
      tradedQuantity k (arrivalTrades fee book.length book o) := by
  have h := tradedQuantity_renumber (swapNew book.length).injective k
    (arrivalTrades fee book.length book o)
  rw [← arrivalTrades_first hI, swapNew_old hk] at h
  exact h

theorem tradedQuantity_new :
    tradedQuantity (book.length + 1) (arrivalTrades fee (book.length + 1) book o) =
      tradedQuantity book.length (arrivalTrades fee book.length book o) := by
  have h := tradedQuantity_renumber (swapNew book.length).injective book.length
    (arrivalTrades fee book.length book o)
  rw [← arrivalTrades_first hI, swapNew_first] at h
  exact h

end Numbers

/-! ## 4. The second of two orders -/

theorem noIndex_fill (q : Int) (x : Order) : (x.fill q).noIndex = x.noIndex.fill q := by
  rw [fill_eq, fill_eq]
  rfl

theorem noIndex_placed (e : Exchange) (o : Order) : (placed e o).noIndex = o.noIndex := rfl

section Second

variable {fee : Int → Int} {m : Main} {i j : Input} {s t : Nat} {o p : Order}
  (hS : Sound m.exchange) (hN : Numbered m.exchange) (hi : entryOf m i = .new s o)
  (hS' : Sound (mainNext fee m i).exchange) (hN' : Numbered (mainNext fee m i).exchange)
  (hj : entryOf (mainNext fee m i) j = .new t p) (hne : o.item ≠ p.item)

include hS hN hi hne

/-- The second order trades with what it would have met without the first. -/
theorem second_trades (r : Nat) : arrivalTrades fee r (mainNext fee m i).exchange.orderbook p =
    arrivalTrades fee r m.exchange.orderbook p :=
  arrivalTrades_agree (arrival_agree fee hS hN hi hne)

include hS' hN' hj

theorem second_log : (mainNext fee (mainNext fee m i) j).exchange.completedTrades =
    m.exchange.completedTrades ++
      arrivalTrades fee m.exchange.orderbook.length m.exchange.orderbook o ++
      arrivalTrades fee (m.exchange.orderbook.length + 1) m.exchange.orderbook p := by
  rw [arrival_log fee hS' hN' hj, arrival_log fee hS hN hi, arrival_book_length fee hS hN hi,
    second_trades hS hN hi hne]

/-- **The book after both**: an order of `m` has lost what it traded with the one of the two that
    is for its item, and each new order what it traded. -/
theorem second_book {k : Nat} {x : Order} (hk : m.exchange.orderbook[k]? = some x) :
    (mainNext fee (mainNext fee m i) j).exchange.orderbook[k]? =
      some (x.fill (if x.item = p.item then
          tradedQuantity k (arrivalTrades fee (m.exchange.orderbook.length + 1)
            m.exchange.orderbook p)
        else
          tradedQuantity k (arrivalTrades fee m.exchange.orderbook.length m.exchange.orderbook o))) := by
  have hlt := (List.getElem?_eq_some_iff.mp hk).1
  by_cases hx : x.item = p.item
  · have hxo : x.item ≠ o.item := fun h => hne (h.symm.trans hx)
    have hlt' : k < (mainNext fee m i).exchange.orderbook.length := by
      rw [arrival_book_length fee hS hN hi]
      omega
    rw [if_pos hx, arrival_book fee hS' hN' hj, List.getElem?_append_left hlt',
      arrival_other fee hS hN hi hk hxo, arrival_book_length fee hS hN hi,
      second_trades hS hN hi hne]
    rfl
  · have hfirst := arrival_book fee hS hN hi k
    rw [List.getElem?_append_left hlt, hk, Option.map_some] at hfirst
    rw [if_neg hx]
    exact arrival_other fee hS' hN' hj hfirst (by rw [fill_item]; exact hx)

theorem second_book_first :
    (mainNext fee (mainNext fee m i) j).exchange.orderbook[m.exchange.orderbook.length]? =
      some ((placed m.exchange o).fill (tradedQuantity m.exchange.orderbook.length
        (arrivalTrades fee m.exchange.orderbook.length m.exchange.orderbook o))) := by
  have hfirst := arrival_book fee hS hN hi m.exchange.orderbook.length
  rw [List.getElem?_concat_length, Option.map_some] at hfirst
  exact arrival_other fee hS' hN' hj hfirst (by rw [fill_item]; exact hne)

theorem second_book_second :
    (mainNext fee (mainNext fee m i) j).exchange.orderbook[m.exchange.orderbook.length + 1]? =
      some ((placed (mainNext fee m i).exchange p).fill
        (tradedQuantity (m.exchange.orderbook.length + 1)
          (arrivalTrades fee (m.exchange.orderbook.length + 1) m.exchange.orderbook p))) := by
  have hsecond := arrival_book fee hS' hN' hj (mainNext fee m i).exchange.orderbook.length
  rw [List.getElem?_concat_length, Option.map_some, second_trades hS hN hi hne,
    arrival_book_length fee hS hN hi] at hsecond
  exact hsecond

/-- Which order of a trade came later is the same with the two new numbers exchanged. -/
theorem second_later : ∀ y ∈ (mainNext fee (mainNext fee m i) j).exchange.completedTrades,
    (swapNew m.exchange.orderbook.length y.orderInBook <
        swapNew m.exchange.orderbook.length y.incomingOrder ↔
      y.orderInBook < y.incomingOrder) := by
  intro y hy
  rw [second_log hS hN hi hS' hN' hj hne, List.append_assoc, List.mem_append, List.mem_append] at hy
  rcases hy with hy | hy | hy
  · obtain ⟨_, _, ho, hb, _⟩ := hS.trades y hy
    rw [swapNew_old (List.getElem?_eq_some_iff.mp ho).1,
      swapNew_old (List.getElem?_eq_some_iff.mp hb).1]
  · obtain ⟨hin, _, hb, _⟩ := mem_arrivalTrades hS.index hy
    have hlt := (List.getElem?_eq_some_iff.mp hb).1
    rw [swapNew_old hlt, hin, swapNew_first]
    omega
  · obtain ⟨hin, _, hb, _⟩ := mem_arrivalTrades hS.index hy
    have hlt := (List.getElem?_eq_some_iff.mp hb).1
    rw [swapNew_old hlt, hin, swapNew_second]
    omega

end Second

/-- **The second order is answered as if it were the first.** -/
theorem second_answer (fee : Int → Int) {m : Main} {pid pid' s t : Nat} {text text' : List Char}
    {o p : Order} (hok : MainOk m) (hN : Numbered m.exchange)
    (hi : entryOf m (.command pid text) = .new s o)
    (hN' : Numbered (mainNext fee m (.command pid text)).exchange)
    (hj : entryOf m (.command pid' text') = .new t p)
    (hj' : entryOf (mainNext fee m (.command pid text)) (.command pid' text') = .new t p)
    (hne : o.item ≠ p.item) :
    (mainStep fee (mainNext fee m (.command pid text)) (.command pid' text')).2 =
      (mainStep fee m (.command pid' text')).2 := by
  have hS := hok.sound
  have hd := doors_command fee hS pid text
  have hfills : ∀ y ∈ arrivalTrades fee m.exchange.orderbook.length m.exchange.orderbook p,
      fillEvents (enterOrder (mainNext fee m (.command pid text)).exchange t p)
        (y.renumber (swapNew m.exchange.orderbook.length)) =
      fillEvents (enterOrder m.exchange t p) y := by
    intro y hy
    obtain ⟨hin, _, hb, _⟩ := mem_arrivalTrades hS.index hy
    have hlt := (List.getElem?_eq_some_iff.mp hb).1
    refine fillEvents_congr ((doors_enter _ t p).trans (hd.trans (doors_enter _ t p).symm)) ?_ ?_ rfl
    · -- the order itself, the last of both books
      show keyAt _ (swapNew _ y.incomingOrder) = keyAt _ y.incomingOrder
      have hlen := arrival_book_length fee hS hN hi
      rw [hin, swapNew_first, ← hlen, enterOrder_book, enterOrder_book, keyAt, keyAt,
        List.getElem?_concat_length, List.getElem?_concat_length]
      rfl
    · show keyAt _ (swapNew _ y.orderInBook) = keyAt _ y.orderInBook
      rw [swapNew_old hlt, enterOrder_book, enterOrder_book,
        keyAt_grows ((next_grows fee hS _).trans (grows_append _ _)) hlt,
        keyAt_grows (grows_append _ _) hlt]
  rw [orderCommand_accepted fee (mainOk_next fee hok _).sound hN' hj',
    orderCommand_accepted fee hS hN hj, broadcast_doors hd, second_trades hS hN hi hne,
    arrival_book_length fee hS hN hi, arrivalTrades_first hS.index, List.flatMap_map,
    List.flatMap_congr hfills]

/-! ## 5. Two new orders -/

section Both

variable {fee : Int → Int} {m : Main} {i j : Input} {s t : Nat} {o p : Order}
  (hok : MainOk m) (hN : Numbered m.exchange)
  (hi : entryOf m i = .new s o) (hj : entryOf m j = .new t p)
  (hNi : Numbered (mainNext fee m i).exchange) (hNj : Numbered (mainNext fee m j).exchange)
  (hij : entryOf (mainNext fee m i) j = .new t p) (hji : entryOf (mainNext fee m j) i = .new s o)
  (hne : o.item ≠ p.item)

include hok hN hi hj hNi hNj hij hji hne

/-- The two new orders have exchanged their places, and every other order is the same. -/
theorem both_book (k : Nat) :
    ((mainNext fee (mainNext fee m j) i).exchange.orderbook[swapNew
        m.exchange.orderbook.length k]?).map Order.noIndex =
      ((mainNext fee (mainNext fee m i) j).exchange.orderbook[k]?).map Order.noIndex := by
  have hS := hok.sound
  have hSi := (mainOk_next fee hok i).sound
  have hSj := (mainOk_next fee hok j).sound
  rcases Nat.lt_trichotomy k m.exchange.orderbook.length with hk | rfl | hk
  · -- an order that was there
    have hx := List.getElem?_eq_getElem hk
    rw [swapNew_old hk, second_book hS hN hi hSi hNi hij hne hx,
      second_book hS hN hj hSj hNj hji hne.symm hx, tradedQuantity_old hS.index fee o hk,
      tradedQuantity_old hS.index fee p hk]
    by_cases hxo : m.exchange.orderbook[k].item = o.item
    · rw [if_pos hxo, if_neg fun h => hne (hxo.symm.trans h)]
    · rw [if_neg hxo]
      by_cases hxp : m.exchange.orderbook[k].item = p.item
      · rw [if_pos hxp]
      · -- it is for neither item, and nothing is drawn from it
        rw [if_neg hxp, tradedQuantity_other hS.index (Nat.le_refl _) hx hxo,
          tradedQuantity_other hS.index (Nat.le_refl _) hx hxp]
  · rw [swapNew_first, second_book_first hS hN hi hSi hNi hij hne,
      second_book_second hS hN hj hSj hNj hji hne.symm, tradedQuantity_new hS.index,
      Option.map_some, Option.map_some, noIndex_fill, noIndex_fill, noIndex_placed, noIndex_placed]
  · rcases Nat.lt_or_eq_of_le (Nat.succ_le_of_lt hk) with hk | rfl
    · -- behind the end of both books
      have hleni := arrival_book_length fee hSi hNi hij
      have hlenj := arrival_book_length fee hSj hNj hji
      rw [arrival_book_length fee hS hN hi] at hleni
      rw [arrival_book_length fee hS hN hj] at hlenj
      rw [swapNew_behind hk, List.getElem?_eq_none (by omega), List.getElem?_eq_none (by omega)]
    · rw [Nat.succ_eq_add_one, swapNew_second, second_book_first hS hN hj hSj hNj hji hne.symm,
        second_book_second hS hN hi hSi hNi hij hne, tradedQuantity_new hS.index, Option.map_some,
        Option.map_some, noIndex_fill, noIndex_fill, noIndex_placed, noIndex_placed]

/-- The trades are the same, under the new numbers. -/
theorem both_trades :
    (mainNext fee (mainNext fee m j) i).exchange.completedTrades.Perm
      ((mainNext fee (mainNext fee m i) j).exchange.completedTrades.map
        (Trade.renumber (swapNew m.exchange.orderbook.length))) := by
  have hS := hok.sound
  have hold : m.exchange.completedTrades.map (Trade.renumber (swapNew m.exchange.orderbook.length)) =
      m.exchange.completedTrades := by
    refine (List.map_congr_left fun y hy => ?_).trans (List.map_id' _)
    obtain ⟨_, _, ho, hb, _⟩ := hS.trades y hy
    unfold Trade.renumber
    rw [swapNew_old (List.getElem?_eq_some_iff.mp ho).1,
      swapNew_old (List.getElem?_eq_some_iff.mp hb).1]
  rw [second_log hS hN hi (mainOk_next fee hok i).sound hNi hij hne,
    second_log hS hN hj (mainOk_next fee hok j).sound hNj hji hne.symm, List.map_append,
    List.map_append, hold, ← arrivalTrades_first hS.index, ← arrivalTrades_second hS.index,
    List.append_assoc, List.append_assoc]
  exact List.perm_append_comm.append_left _

/-- **Two new orders for two products leave the same state**, up to their numbers. -/
theorem both_renumbered (hL : Ledger m.exchange) :
    Renumbered (swapNew m.exchange.orderbook.length)
      (mainNext fee (mainNext fee m i) j).exchange (mainNext fee (mainNext fee m j) i).exchange := by
  have hoki := mainOk_next fee hok i
  have hokj := mainOk_next fee hok j
  have hLi := ledger_next fee hok.sound hL i
  have hLj := ledger_next fee hok.sound hL j
  refine positions_renumbered (mainOk_next fee hoki j).sound (mainOk_next fee hokj i).sound
    (ledger_next fee hoki.sound hLi j) (ledger_next fee hokj.sound hLj i) ?_ ?_
    (both_book hok hN hi hj hNi hNj hij hji hne) (both_trades hok hN hi hj hNi hNj hij hji hne)
    (second_later hok.sound hN hi hoki.sound hNi hij hne)
  · rw [next_products fee hoki.sound, next_products fee hok.sound, next_products fee hokj.sound,
      next_products fee hok.sound]
  · have hpids := (next_pids fee hokj.sound i).trans (next_pids fee hok.sound j)
    have hpids' := (next_pids fee hoki.sound j).trans (next_pids fee hok.sound i)
    have hlen := congrArg List.length (hpids.trans hpids'.symm)
    rwa [List.length_map, List.length_map] at hlen

end Both

/-! ## 6. Two commands -/

section Commands

variable {fee : Int → Int} {m m' : Main} {pid pid' s t : Nat} {text text' : List Char} {x y : Word}

/-- A BUY or SELL command does the same in a state that differs in main's variables only. -/
theorem orderCommand_congr (fee : Int → Int) (hok : MainOk m) (hN : Numbered m.exchange)
    (hrun : m.exchangeDisconnect = false) (hs : SameReading pid m m')
    (he : m'.exchange = m.exchange) (hcmd : OrderCommand text x)
    (hf : findTrader m.exchange.traders pid = some s) :
    (mainNext fee m' (.command pid text)).exchange = (mainNext fee m (.command pid text)).exchange ∧
    (mainStep fee m' (.command pid text)).2 = (mainStep fee m (.command pid text)).2 := by
  have hentry := entryOf_congr hs hcmd hf
  have hS' : Sound m'.exchange := he ▸ hok.sound
  have hN' : Numbered m'.exchange := he ▸ hN
  rcases entryOf_orderCommand hs.argv hcmd hf with h | ⟨o, h, _⟩
  · obtain ⟨hx, hev⟩ := orderCommand_rejected fee hs.argv hrun hcmd hf h
    obtain ⟨hx', hev'⟩ := orderCommand_rejected fee hs.argv' (hs.running.trans hrun) hcmd
      (by rw [he]; exact hf) (hentry.trans h)
    exact ⟨by rw [hx, hx', he], by rw [hev, hev']⟩
  · have h' := hentry.trans h
    have hsweep' := next_new_sweep fee hS' hN' h'
    rw [he] at hsweep'
    refine ⟨(repeats_unique hsweep' (next_new_sweep fee hok.sound hN h)).2, ?_⟩
    rw [orderCommand_accepted fee hS' hN' h', orderCommand_accepted fee hok.sound hN h, he]

/-- A command that is rejected commutes with every other. -/
theorem commutes_rejected (fee : Int → Int) (hok : MainOk m) (hN : Numbered m.exchange)
    (hargv : m.marketArgv.length = commandArgc) (hrun : m.exchangeDisconnect = false)
    (hf : findTrader m.exchange.traders pid = some s)
    (hf' : findTrader m.exchange.traders pid' = some t) (hst : s ≠ t)
    (hcmd : OrderCommand text x) (hcmd' : OrderCommand text' y)
    (h : entryOf m (.command pid text) = .none) :
    (mainStep fee (mainNext fee m (.command pid' text')) (.command pid text)).2 =
        (mainStep fee m (.command pid text)).2 ∧
      (mainStep fee (mainNext fee m (.command pid text)) (.command pid' text')).2 =
        (mainStep fee m (.command pid' text')).2 ∧
      (mainNext fee (mainNext fee m (.command pid text)) (.command pid' text')).exchange =
        (mainNext fee (mainNext fee m (.command pid' text')) (.command pid text)).exchange := by
  have hs : SameReading pid m (mainNext fee m (.command pid' text')) :=
    sameReading_command fee hok hargv hf hf' hst
  have hs' : SameReading pid' m (mainNext fee m (.command pid text)) :=
    sameReading_command fee hok hargv hf' hf hst.symm
  obtain ⟨hx, hev⟩ := orderCommand_rejected fee hargv hrun hcmd hf h
  obtain ⟨hx', hev'⟩ := orderCommand_rejected fee hs.argv' (hs.running.trans hrun) hcmd
    ((findTrader_doors hs.traders pid).trans hf) ((entryOf_congr hs hcmd hf).trans h)
  obtain ⟨hsame, hanswer⟩ := orderCommand_congr fee hok hN hrun hs' hx hcmd' hf'
  exact ⟨by rw [hev, hev'], hanswer, by rw [hsame, hx']⟩

/-- **Two BUY or SELL commands of two traders for two products commute**, from a sound state that
    numbers its orders. -/
theorem commutes_commands (hok : MainOk m) (hN : Numbered m.exchange) (hL : Ledger m.exchange)
    (hargv : m.marketArgv.length = commandArgc)
    (hf : findTrader m.exchange.traders pid = some s)
    (hf' : findTrader m.exchange.traders pid' = some t) (hst : s ≠ t)
    (hcmd : OrderCommand text x) (hcmd' : OrderCommand text' y) (hxy : x ≠ y)
    (hnext : EntersNext m (.command pid text)) (hnext' : EntersNext m (.command pid' text')) :
    Commutes fee m (.command pid text) (.command pid' text') := by
  cases hrun : m.exchangeDisconnect with
  | true =>
      -- the loop has ended: nothing is read any more
      have hstep : ∀ pid text, mainStep fee m (.command pid text) = (m, []) := by
        intro pid text
        simp only [mainStep, hrun, if_true]
      have hmain : ∀ pid text, mainNext fee m (.command pid text) = m := by
        intro pid text
        rw [mainNext, hstep]
      exact commutes_of_eq (by rw [hmain]) (by rw [hmain]) (by rw [hmain, hmain, hmain])
  | false =>
      rcases entryOf_orderCommand hargv hcmd hf with h | ⟨o, h, ho⟩
      · obtain ⟨h1, h2, h3⟩ := commutes_rejected fee hok hN hargv hrun hf hf' hst hcmd hcmd' h
        exact commutes_of_eq h1 h2 h3
      · rcases entryOf_orderCommand hargv hcmd' hf' with h' | ⟨p, h', hp⟩
        · obtain ⟨h1, h2, h3⟩ :=
            commutes_rejected fee hok hN hargv hrun hf' hf hst.symm hcmd' hcmd h'
          exact commutes_of_eq h2 h1 h3.symm
        · have hne : o.item ≠ p.item := by
            rw [ho, hp]
            exact hxy
          have hNi := numbered_next fee hok.sound hN hnext
          have hNj := numbered_next fee hok.sound hN hnext'
          have hs : SameReading pid m (mainNext fee m (.command pid' text')) :=
            sameReading_command fee hok hargv hf hf' hst
          have hs' : SameReading pid' m (mainNext fee m (.command pid text)) :=
            sameReading_command fee hok hargv hf' hf hst.symm
          have hji := (entryOf_congr hs hcmd hf).trans h
          have hij := (entryOf_congr hs' hcmd' hf').trans h'
          exact ⟨second_answer fee hok hN h' hNj h hji hne.symm,
            second_answer fee hok hN h hNi h' hij hne, swapNew m.exchange.orderbook.length,
            fun k hk => swapNew_old hk, both_renumbered hok hN h h' hNi hNj hij hji hne hL⟩

end Commands

/-- **Independent commands commute.** From every state of a run that numbers its orders, two BUY
    or SELL commands that do so too, of two traders and for two products of a list of distinct
    names, give in either order the same messages, the same trades, the same inventory and bank of
    every trader, the same fee total and the same orders with the same quantities left, up to the
    numbers of the two new ones. -/
theorem commands_commute (fee : Int → Int) (products : List Word) (hnd : products.Nodup)
    (pids : List Nat) (argv : List Word) (hargv : argv.length = commandArgc) (is : List Input)
    (h : AllSteps (mainNext fee) EntersNext (mainInit products pids argv) is) :
    let m := mainRun fee products pids argv is
    ∀ (pid pid' s t : Nat) (text text' : List Char) (x y : Word),
      findTrader m.exchange.traders pid = some s → findTrader m.exchange.traders pid' = some t →
      s ≠ t → OrderCommand text x → OrderCommand text' y → x ≠ y →
      EntersNext m (.command pid text) → EntersNext m (.command pid' text') →
      Commutes fee m (.command pid text) (.command pid' text') := by
  intro m pid pid' s t text text' x y hf hf' hst hcmd hcmd' hxy hnext hnext'
  obtain ⟨hok, hN⟩ := numbered_run fee products pids argv is h
  have hL : Ledger m.exchange := ledger_run fee hnd pids argv is
  exact commutes_commands hok hN hL (argv_run fee products pids hargv is) hf hf' hst hcmd hcmd' hxy
    hnext hnext'

/-- A GPU and two Routers are bought from one seller, in either order: both trade. -/
theorem commands_commute_twoBuyers :
    let m := mainRun (· / 100) ["GPU".toList, "Router".toList] [10, 11, 12] (List.replicate 6 [])
      [.command 12 "SELL 0 GPU 4 100;".toList, .command 12 "SELL 1 Router 3 50;".toList]
    (mainRun (· / 100) ["GPU".toList, "Router".toList] [10, 11, 12] (List.replicate 6 [])
      [.command 12 "SELL 0 GPU 4 100;".toList, .command 12 "SELL 1 Router 3 50;".toList,
        .command 10 "BUY 0 GPU 1 120;".toList, .command 11 "BUY 0 Router 2 60;".toList]
      ).exchange.completedTrades = [⟨2, 0, 1, 100, 1⟩, ⟨3, 1, 2, 50, 1⟩] ∧
    Commutes (· / 100) m (.command 10 "BUY 0 GPU 1 120;".toList)
      (.command 11 "BUY 0 Router 2 60;".toList) := by
  intro m
  refine ⟨by decide +kernel, ?_⟩
  exact commands_commute (· / 100) ["GPU".toList, "Router".toList] (by decide) [10, 11, 12]
    (List.replicate 6 []) rfl
    [.command 12 "SELL 0 GPU 4 100;".toList, .command 12 "SELL 1 Router 3 50;".toList]
    (by decide +kernel) 10 11 0 1 _ _ "GPU".toList "Router".toList (by decide +kernel)
    (by decide +kernel) (by decide) (by decide +kernel) (by decide +kernel) (by decide)
    (by decide +kernel) (by decide +kernel)

end SysProg.Pe
