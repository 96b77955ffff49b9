/-
  File:      SysProg/Pe/Trades.lean
  Subject:   TRADE SAFETY: when the trades of the log are between a BUY and a
             SELL order of one product, within both limits.

  The counter order is chosen by product and price and then looked up again
  by trader, id and side. With an id used for two open orders the second
  search may return another order than the one chosen, of another product
  or at a worse price. It returns an equally good one as long as of two open
  orders with one key the earlier is for the same product and no dearer.

  * `Compatible`, `KeysCompatible` -- that condition, on two orders and on a
    book;
  * `getBest_safe` -- under it the order returned is one to trade with;
  * `trades_safe` -- a run all of whose entries are compatible makes safe
    trades only;
  * `trades_unsafe` -- a run that trades a Router for a GPU.
-/
import SysProg.Pe.Sound

namespace SysProg.Pe

open Lib

/-! ## 1. The property -/

/-- The price is within the limit of the order. -/
def WithinLimit (price : Int) (o : Order) : Prop :=
  match o.orderType with
  | .BUY => price ≤ o.unitPrice
  | .SELL => o.unitPrice ≤ price

instance (price : Int) (o : Order) : Decidable (WithinLimit price o) := by
  unfold WithinLimit
  split <;> infer_instance

/-- A trade of a BUY and a SELL order for the same item, at the price of the order in the book
    and within both limits. -/
def SafeTrade (book : List Order) (x : Trade) : Prop :=
  ∃ o b, book[x.incomingOrder]? = some o ∧ book[x.orderInBook]? = some b ∧
    b.orderType = o.orderType.other ∧ b.item = o.item ∧ x.transactionPrice = b.unitPrice ∧
    WithinLimit x.transactionPrice o ∧ WithinLimit x.transactionPrice b

def TradesSafe (e : Exchange) : Prop := ∀ x ∈ e.completedTrades, SafeTrade e.orderbook x

/-! ## 2. The condition -/

/-- If `b` is open and has the key and the side of `o`, it is for the same item and at least as
    good a price. -/
def Compatible (b o : Order) : Prop :=
  b.completed = false → b.trader = o.trader → b.orderId = o.orderId → b.orderType = o.orderType →
    b.item = o.item ∧ rank o.orderType b.unitPrice ≤ rank o.orderType o.unitPrice

instance (b o : Order) : Decidable (Compatible b o) :=
  inferInstanceAs (Decidable (_ → _ → _ → _ → _ ∧ _))

/-- The order a step enters is compatible with every order of the book, the one it replaces
    excepted. -/
def EntersCompatible (m : Main) (i : Input) : Prop :=
  match entryOf m i with
  | .none => True
  | .new _ o => ∀ b ∈ m.exchange.orderbook, Compatible b o
  | .amended _ k o => ∀ b ∈ m.exchange.orderbook.eraseIdx k, Compatible b o

instance (m : Main) (i : Input) : Decidable (EntersCompatible m i) := by
  unfold EntersCompatible
  exact match entryOf m i with
    | .none => instDecidableTrue
    | .new _ o => inferInstanceAs (Decidable (∀ b ∈ m.exchange.orderbook, Compatible b o))
    | .amended _ k o =>
        inferInstanceAs (Decidable (∀ b ∈ m.exchange.orderbook.eraseIdx k, Compatible b o))

/-- Of two open orders with one key and side the earlier is compatible with the later. -/
def KeysCompatible (book : List Order) : Prop :=
  ∀ (j k : Nat) (b o : Order), j < k → book[j]? = some b → book[k]? = some o →
    o.completed = false → Compatible b o

theorem keysCompatible_grows {ob ob' : List Order} (hK : KeysCompatible ob) (hg : Grows ob ob')
    (hlen : ob'.length = ob.length) : KeysCompatible ob' := by
  intro j k b o hjk hb ho hopen hbo ht hid hs
  obtain ⟨b₀, hb₀, heb⟩ := hg.back hlen hb
  obtain ⟨o₀, ho₀, heo⟩ := hg.back hlen ho
  rw [heb.trader, heo.trader] at ht
  rw [heb.orderId, heo.orderId] at hid
  rw [heb.orderType, heo.orderType] at hs
  rw [heb.item, heo.item, heo.orderType, heb.unitPrice, heo.unitPrice]
  exact hK j k b₀ o₀ hjk hb₀ ho₀ (heo.open_of_open hopen) (heb.open_of_open hbo) ht hid hs

theorem keysCompatible_append {ob : List Order} (hK : KeysCompatible ob) {o : Order}
    (hc : ∀ b ∈ ob, Compatible b o) : KeysCompatible (ob ++ [o]) := by
  intro j k b x hjk hb hx hopen
  rcases getElem?_snoc hx with hx | ⟨hk, rfl⟩
  · have hlt := (List.getElem?_eq_some_iff.mp hx).1
    rw [List.getElem?_append_left (by omega)] at hb
    exact hK j k b x hjk hb hx hopen
  · rw [List.getElem?_append_left (by omega)] at hb
    exact hc b (List.mem_of_getElem? hb)

theorem keysCompatible_replace {e : Exchange} {t k : Nat} {o : Order} (hK : KeysCompatible e.orderbook)
    (hc : ∀ b ∈ e.orderbook.eraseIdx k, Compatible b o) :
    KeysCompatible (replaceOrder e t k o).orderbook := by
  intro j l b x hjl hb hx hopen hbo
  rw [replaceOrder_book] at hb hx
  obtain ⟨b₁, hb₁, hb'⟩ := getElem?_modify_of hb
  obtain ⟨x₁, hx₁, ⟨_, rfl⟩ | ⟨_, rfl⟩⟩ := getElem?_modify_of hx
  · rcases hb' with ⟨hjk, rfl⟩ | ⟨_, rfl⟩
    · rcases getElem?_snoc hx₁ with hx₀ | ⟨hl, rfl⟩
      · have hlt := (List.getElem?_eq_some_iff.mp hx₀).1
        rw [List.getElem?_append_left (by omega)] at hb₁
        exact hK j l b x hjl hb₁ hx₀ hopen hbo
      · rw [List.getElem?_append_left (by omega)] at hb₁
        exact hc b (List.mem_eraseIdx_iff_getElem?.mpr ⟨j, Ne.symm hjk, hb₁⟩) hbo
    · cases hbo
  · cases hopen

/-! ## 3. The order returned is one to trade with -/

/-- **The second search returns an order as good as the candidate.** -/
theorem getBest_safe {side : OrderType} {ob : List Order} {x : Word} {limit : Int} {k : Nat}
    (hK : KeysCompatible ob) (h : getBest side ob x limit = some k) :
    ∃ best, ob[k]? = some best ∧ best.item = x ∧ rank side best.unitPrice ≤ rank side limit := by
  obtain ⟨i, c, best, hc, hlim, hk, hle, hkey, hs, ho⟩ := getBest_spec h
  refine ⟨best, hk, ?_⟩
  by_cases hki : k = i
  · subst hki
    have hbc : best = c := Option.some.inj (hk.symm.trans hc.place)
    subst hbc
    exact ⟨hc.rests.2.1, hlim⟩
  · obtain ⟨hitem, hrank⟩ := hK k i best c (by omega) hk hc.place hc.rests.2.2 ho hkey.1 hkey.2
      (hs.trans hc.rests.1.symm)
    rw [hc.rests.1] at hrank
    exact ⟨hitem.trans hc.rests.2.1, Int.le_trans hrank hlim⟩

theorem withinLimit_own (o : Order) : WithinLimit o.unitPrice o := by
  unfold WithinLimit
  split <;> exact Int.le_refl _

theorem withinLimit_of_rank {p : Int} {o : Order}
    (h : rank o.orderType.other p ≤ rank o.orderType.other o.unitPrice) : WithinLimit p o := by
  unfold WithinLimit
  cases ht : o.orderType <;> simp only [ht, OrderType.other, rank] at h ⊢ <;> omega

theorem safeTrade_grows {ob ob' : List Order} (hg : Grows ob ob') {x : Trade}
    (h : SafeTrade ob x) : SafeTrade ob' x := by
  obtain ⟨o, b, ho, hb, hs, hi, hp, hlo, hlb⟩ := h
  obtain ⟨o', ho', heo⟩ := hg _ o ho
  obtain ⟨b', hb', heb⟩ := hg _ b hb
  refine ⟨o', b', ho', hb', by rw [heb.orderType, heo.orderType, hs], by rw [heb.item, heo.item, hi],
    by rw [heb.unitPrice, hp], ?_, ?_⟩
  · unfold WithinLimit
    rw [heo.orderType, heo.unitPrice]
    exact hlo
  · unfold WithinLimit
    rw [heb.orderType, heb.unitPrice]
    exact hlb

theorem safeTrade_match {fee : Int → Int} {e : Exchange} {side : OrderType} {r b : Nat}
    {o best : Order} (hK : KeysCompatible e.orderbook) (h : Match e side r b o best) :
    SafeTrade e.orderbook (matchTrade fee r b o best) := by
  obtain ⟨best', hb', hitem, hrank⟩ := getBest_safe hK h.found
  have he : best' = best := Option.some.inj (hb'.symm.trans h.inBook)
  subst he
  refine ⟨o, best', h.incoming, h.inBook, by rw [h.bookSide, h.ownSide], hitem, rfl, ?_,
    withinLimit_own best'⟩
  refine withinLimit_of_rank ?_
  rw [h.ownSide]
  exact hrank

/-! ## 4. Runs -/

theorem tradesSafe_next (fee : Int → Int) {m : Main} {i : Input} (hS : Sound m.exchange)
    (hK : KeysCompatible m.exchange.orderbook) (hT : TradesSafe m.exchange)
    (hc : EntersCompatible m i) :
    KeysCompatible (mainNext fee m i).exchange.orderbook ∧ TradesSafe (mainNext fee m i).exchange := by
  unfold EntersCompatible at hc
  refine (mainNext_inv (I := fun e => KeysCompatible e.orderbook ∧ TradesSafe e)
    (fun e side r b o best _ hI hM => ⟨?_, fun x hx => ?_⟩) hS ?_ ?_ ?_ ?_ ?_).2
  · exact keysCompatible_grows hI.1 (grows_match fee hM) applyMatch_book_length
  · rcases List.mem_append.mp hx with hx | hx
    · exact safeTrade_grows (grows_match fee hM) (hI.2 x hx)
    · rw [List.mem_singleton.mp hx]
      exact safeTrade_grows (grows_match fee hM) (safeTrade_match hI.1 hM)
  · intro t o h _
    rw [h] at hc
    exact ⟨keysCompatible_append hK hc, fun x hx => safeTrade_grows (grows_append _ _) (hT x hx)⟩
  · intro t k o old h hold
    rw [h] at hc
    exact ⟨keysCompatible_replace hK hc,
      fun x hx => safeTrade_grows (grows_replace hold) (hT x hx)⟩
  · exact fun _ => ⟨hK, hT⟩
  · intro r o _ hr ho
    exact ⟨keysCompatible_grows hK (grows_close hr ho) (List.length_modify _ _ _),
      fun x hx => safeTrade_grows (grows_close hr ho) (hT x hx)⟩
  · exact fun _ _ => ⟨hK, hT⟩

/-- **Trade safety of the runs whose entries are compatible**: in every state each trade pairs a
    BUY with a SELL order for the same item, at the price of the order in the book and within
    both limits. -/
theorem trades_safe (fee : Int → Int) (products : List Word) (pids : List Nat) (argv : List Word)
    (is : List Input)
    (h : AllSteps (mainNext fee) EntersCompatible (mainInit products pids argv) is) :
    Always (mainNext fee) (fun m => TradesSafe m.exchange) (mainInit products pids argv) is := by
  refine always_mono (fun m hm => hm.2.2) is (always_of_allSteps
    (P := fun m => MainOk m ∧ KeysCompatible m.exchange.orderbook ∧ TradesSafe m.exchange)
    (fun m i hm hc => ⟨mainOk_next fee hm.1 i, tradesSafe_next fee hm.1.sound hm.2.1 hm.2.2 hc⟩)
    is ⟨mainOk_init products pids argv, ?_, ?_⟩ h)
  · intro j k b o _ hb
    cases hb
  · intro x hx
    cases hx

/-- A seller with two ids, and a buyer. -/
theorem trades_safe_twoIds :
    let is := [Input.command 10 "SELL 0 GPU 10 100;".toList,
      .command 10 "SELL 1 Router 10 500;".toList, .command 11 "BUY 0 Router 10 600;".toList]
    AllSteps (mainNext (· / 100)) EntersCompatible
      (mainInit ["GPU".toList, "Router".toList] [10, 11] (List.replicate 6 [])) is ∧
    Always (mainNext (· / 100)) (fun m => TradesSafe m.exchange)
      (mainInit ["GPU".toList, "Router".toList] [10, 11] (List.replicate 6 [])) is := by
  intro is
  have h : AllSteps (mainNext (· / 100)) EntersCompatible
      (mainInit ["GPU".toList, "Router".toList] [10, 11] (List.replicate 6 [])) is := by
    decide +kernel
  exact ⟨h, trades_safe _ _ _ _ is h⟩

/-- The id 0 sells a GPU and then a Router; the buyer of the Router gets the GPU. -/
theorem trades_unsafe :
    let e := (mainRun (· / 100) ["GPU".toList, "Router".toList] [10, 11] (List.replicate 6 [])
      [.command 10 "SELL 0 GPU 10 100;".toList, .command 10 "SELL 0 Router 10 500;".toList,
        .command 11 "BUY 0 Router 10 600;".toList]).exchange
    ¬ TradesSafe e := by
  intro e h
  have hlog : e.completedTrades = [⟨2, 0, 10, 100, 10⟩] := by decide +kernel
  have hitems : e.orderbook.map (·.item) = ["GPU".toList, "Router".toList, "Router".toList] := by
    decide +kernel
  obtain ⟨o, b, ho, hb, _, hi, _⟩ := h ⟨2, 0, 10, 100, 10⟩ (by rw [hlog]; exact List.mem_cons_self)
  have h0 := congrArg (·[0]?) hitems
  have h2 := congrArg (·[2]?) hitems
  simp only [List.getElem?_map, ho, hb] at h0 h2
  have e0 : b.item = "GPU".toList := Option.some.inj h0
  have e2 : o.item = "Router".toList := Option.some.inj h2
  rw [e0, e2] at hi
  exact absurd hi (by decide)

end SysProg.Pe
