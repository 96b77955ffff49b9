/-
  File:      SysProg/Pe/Place.lean
  Subject:   What one call of `placeBuyOrder` or `placeSellOrder` does, and
             that the matching loop ends.

  * `BookOk` -- what the calls rely on: positions, owners, products and
    quantities of the orders in the book. Under it neither `buy` nor `sell`
    fails, so the early returns after `addTrade` are never taken;
  * `placeFor_cases` -- a call changes nothing and returns NULL, or it makes
    exactly one match (`Match`, `applyMatch`);
  * `openCount_applyMatch` -- a match closes an order;
  * `sweep_total`, `tradeLoop_done` -- so the calls until NULL end, and the
    rounds main's loop is given are enough.
-/
import SysProg.Lib.Loops
import SysProg.Pe.Search

namespace SysProg.Pe

open Lib

/-! ## 1. The book a call relies on -/

structure BookOk (e : Exchange) : Prop where
  index : ∀ (k : Nat) (o : Order), e.orderbook[k]? = some o → o.orderIndex = k
  owner : ∀ (k : Nat) (o : Order), e.orderbook[k]? = some o → o.trader < e.traders.length
  item : ∀ (k : Nat) (o : Order), e.orderbook[k]? = some o → o.item ∈ e.products
  positive : ∀ (k : Nat) (o : Order), e.orderbook[k]? = some o → o.completed = false →
    1 ≤ o.quantity

/-- An open incoming order and the open order of the other side the search returns for it. -/
structure Match (e : Exchange) (side : OrderType) (r b : Nat) (o best : Order) : Prop where
  incoming : e.orderbook[r]? = some o
  inBook : e.orderbook[b]? = some best
  ownSide : o.orderType = side
  bookSide : best.orderType = side.other
  isOpen : o.completed = false
  bookOpen : best.completed = false
  found : getBest side.other e.orderbook o.item o.unitPrice = some b

theorem Match.ne {e : Exchange} {side : OrderType} {r b : Nat} {o best : Order}
    (h : Match e side r b o best) : r ≠ b := by
  intro hrb
  have h1 := h.incoming
  rw [hrb, h.inBook] at h1
  cases h1
  exact side.other_ne (h.bookSide.symm.trans h.ownSide)

/-! ## 2. The effect of a match -/

/-- The quantity of a match. -/
def matchAmount (o best : Order) : Int := min o.quantity best.quantity

/-- An order after a match of quantity `q`. -/
def Order.fill (q : Int) (o : Order) : Order := closeIfEmpty (adjustAmount q o)

def matchTrade (fee : Int → Int) (r b : Nat) (o best : Order) : Trade :=
  ⟨r, b, matchAmount o best, best.unitPrice, fee (matchAmount o best * best.unitPrice)⟩

/-- Where a product stands in the list. -/
def productPos (products : List Word) (x : Word) : Nat := products.findIdx (· = x)

/-- The position of a trader in product `i` moves by `dq` pieces and `dv` dollars. -/
def shift (i : Nat) (dq dv : Int) (t : Trader) : Trader :=
  { t with
    inventoryQuantity := t.inventoryQuantity.modify i (· + dq)
    bank := t.bank.modify i (· + dv) }

/-- The pieces a deal of `q` brings to the side. -/
def signedQ : OrderType → Int → Int
  | .BUY, q => q
  | .SELL, q => -q

/-- The dollars a deal of value `v` brings to the side. -/
def signedV : OrderType → Int → Int
  | .BUY, v => -v
  | .SELL, v => v

/-- The order of a match that came later pays the fee. -/
def payer (o best : Order) : Order := if o.orderIndex > best.orderIndex then o else best

/-- The traders after a match of quantity `q` at price `p` with fee `tx`. -/
def settle (products : List Word) (side : OrderType) (o best : Order) (q p tx : Int)
    (traders : List Trader) : List Trader :=
  ((traders.modify o.trader
      (shift (productPos products o.item) (signedQ side q) (signedV side (p * q)))).modify best.trader
      (shift (productPos products best.item) (signedQ side.other q)
        (signedV side.other (p * q)))).modify (payer o best).trader
      (tax products · tx (payer o best).item)

/-- The state after a match. -/
def applyMatch (fee : Int → Int) (e : Exchange) (side : OrderType) (r b : Nat) (o best : Order) :
    Exchange where
  products := e.products
  traders := settle e.products side o best (matchAmount o best) best.unitPrice
    (fee (matchAmount o best * best.unitPrice)) e.traders
  orderbook := (e.orderbook.modify b (Order.fill (matchAmount o best))).modify r
    (Order.fill (matchAmount o best))
  completedTrades := e.completedTrades ++ [matchTrade fee r b o best]
  transactionFee := e.transactionFee + fee (matchAmount o best * best.unitPrice)

theorem movePosition_of_mem {products : List Word} {x : Word} (hx : x ∈ products) (t : Trader)
    (dq dv : Int) : movePosition products t x dq dv = some (shift (productPos products x) dq dv t) := by
  have h : products.findIdx? (fun p => decide (p = x)) = some (productPos products x) :=
    List.findIdx?_eq_some_of_exists ⟨x, hx, by simp⟩
  unfold movePosition
  rw [h]
  rfl

theorem moveOf_of_mem {products : List Word} {x : Word} (hx : x ∈ products) (side : OrderType)
    (t : Trader) (q p : Int) : moveOf side products t x q p =
      some (shift (productPos products x) (signedQ side q) (signedV side (p * q)) t) := by
  cases side with
  | BUY => exact movePosition_of_mem hx t q (-(p * q))
  | SELL => exact movePosition_of_mem hx t (-q) (p * q)

theorem set_eq_modify {α : Type*} {l : List α} {i : Nat} {x : α} (f : α → α) (h : l[i]? = some x) :
    l.set i (f x) = l.modify i f := by
  refine List.ext_getElem? fun j => ?_
  rw [List.getElem?_modify]
  by_cases hij : i = j
  · subst hij
    rw [List.getElem?_set_self' , h]
    simp
  · rw [List.getElem?_set_ne hij]
    simp [hij]

/-- `buy` and `sell` do not fail on a listed product. -/
theorem deal_of_mem {e : Exchange} {side : OrderType} {t : Nat} {x : Word} (q p : Int)
    (ht : t < e.traders.length) (hx : x ∈ e.products) :
    e.deal (moveOf side) t x q p = some (e.onTrader t
      (shift (productPos e.products x) (signedQ side q) (signedV side (p * q)))) := by
  have h : e.traders[t]? = some e.traders[t] := List.getElem?_eq_getElem ht
  unfold Exchange.deal
  simp only [h, moveOf_of_mem hx, Option.map_some, Exchange.onTrader]
  rw [set_eq_modify _ h]

/-- The four changes of the book in one call are two. -/
theorem book_changes {l : List Order} {r b : Nat} (hrb : r ≠ b) (q : Int) :
    ((((l.modify b (adjustAmount q)).modify r (adjustAmount q)).modify b closeIfEmpty).modify r
      closeIfEmpty) = (l.modify b (Order.fill q)).modify r (Order.fill q) := by
  rw [List.modify_modify_ne _ _ _ hrb, List.modify_modify_eq, List.modify_modify_eq]
  rfl

/-- **One call**: nothing happens, because the order is not an open order of its side or because
    the search finds nothing; or exactly one match is made. -/
theorem placeFor_cases (fee : Int → Int) {e : Exchange} (hB : BookOk e) (side : OrderType)
    (order : Option Nat) :
    (placeFor fee side e order = (none, e) ∧
      ∀ r o, order = some r → e.orderbook[r]? = some o → o.orderType = side →
        o.completed = false → getBest side.other e.orderbook o.item o.unitPrice = none) ∨
    ∃ r b o best, order = some r ∧ Match e side r b o best ∧
      placeFor fee side e order = (some (matchTrade fee r b o best),
        applyMatch fee e side r b o best) := by
  rw [placeFor_eq]
  cases order with
  | none => exact Or.inl ⟨rfl, fun r o h => by cases h⟩
  | some r =>
    cases hr : e.orderbook[r]? with
    | none =>
        refine Or.inl ⟨by simp only [placeOrder, hr], fun r' o h ho => ?_⟩
        cases h
        rw [hr] at ho
        cases ho
    | some o =>
      by_cases hside : o.orderType = side.other ∨ o.completed = true
      · refine Or.inl ⟨by simp only [placeOrder, hr, if_pos hside], fun r' o' h ho hs hc => ?_⟩
        cases h
        rw [hr] at ho
        cases ho
        rcases hside with h | h
        · exact absurd (h.symm.trans hs) side.other_ne
        · rw [hc] at h
          cases h
      · have hs : o.orderType = side := by
          have h := OrderType.eq_other_of_ne fun h => hside (Or.inl h)
          rwa [OrderType.other_other] at h
        have hc : o.completed = false := Bool.eq_false_iff.mpr fun h => hside (Or.inr h)
        cases hb : getBest side.other e.orderbook o.item o.unitPrice with
        | none =>
            refine Or.inl ⟨by simp only [placeOrder, hr, if_neg hside, hb], fun r' o' h ho _ _ => ?_⟩
            cases h
            rw [hr] at ho
            cases ho
            exact hb
        | some b =>
            obtain ⟨_, _, best, _, _, hbest, _, _, hbs, hbc⟩ := getBest_spec hb
            have hM : Match e side r b o best := ⟨hr, hbest, hs, hbs, hc, hbc, hb⟩
            refine Or.inr ⟨r, b, o, best, rfl, hM, ?_⟩
            have hq : ¬ (o.quantity ≤ 0 ∨ best.quantity ≤ 0) := by
              have h1 := hB.positive r o hr hc
              have h2 := hB.positive b best hbest hbc
              omega
            have hamount : (if o.quantity > best.quantity then best.quantity else o.quantity) =
                matchAmount o best := by
              unfold matchAmount
              split <;> omega
            have hne : o.orderIndex ≠ best.orderIndex := by
              rw [hB.index r o hr, hB.index b best hbest]
              exact fun h => hM.ne (Int.ofNat.inj h)
            simp only [placeOrder, hr, if_neg hside, hb, hbest, if_neg hq, hamount]
            rw [deal_of_mem]
            · simp only
              rw [deal_of_mem]
              · simp only [Exchange.onOrder, Exchange.onTrader, addTrade, matchTrade, applyMatch,
                  settle, payer, Prod.mk.injEq, true_and]
                by_cases hgt : o.orderIndex > best.orderIndex
                · simp only [if_pos hgt, Exchange.mk.injEq, true_and, and_true]
                  exact book_changes hM.ne _
                · have hlt : o.orderIndex < best.orderIndex := by omega
                  simp only [if_neg hgt, if_pos hlt, Exchange.mk.injEq, true_and, and_true]
                  exact book_changes hM.ne _
              · show best.trader < (e.traders.modify _ _).length
                rw [List.length_modify]
                exact hB.owner b best hbest
              · exact hB.item b best hbest
            · exact hB.owner r o hr
            · exact hB.item r o hr

/-! ## 3. The book after a match -/

theorem fill_eq (q : Int) (o : Order) : o.fill q =
    { o with quantity := o.quantity - q, completed := o.completed || decide (o.quantity - q ≤ 0) } := by
  unfold Order.fill closeIfEmpty adjustAmount closeOrder
  by_cases h : o.quantity - q ≤ 0
  · simp [h]
  · simp [h]

@[simp] theorem fill_orderType (q : Int) (o : Order) : (o.fill q).orderType = o.orderType := by
  rw [fill_eq]

@[simp] theorem fill_item (q : Int) (o : Order) : (o.fill q).item = o.item := by rw [fill_eq]

@[simp] theorem fill_unitPrice (q : Int) (o : Order) : (o.fill q).unitPrice = o.unitPrice := by
  rw [fill_eq]

@[simp] theorem fill_trader (q : Int) (o : Order) : (o.fill q).trader = o.trader := by rw [fill_eq]

@[simp] theorem fill_orderId (q : Int) (o : Order) : (o.fill q).orderId = o.orderId := by
  rw [fill_eq]

@[simp] theorem fill_orderIndex (q : Int) (o : Order) : (o.fill q).orderIndex = o.orderIndex := by
  rw [fill_eq]

@[simp] theorem fill_quantity (q : Int) (o : Order) : (o.fill q).quantity = o.quantity - q := by
  rw [fill_eq]

theorem fill_completed {q : Int} {o : Order} :
    (o.fill q).completed = true ↔ o.completed = true ∨ o.quantity - q ≤ 0 := by
  rw [fill_eq]
  simp

section AfterMatch

variable {fee : Int → Int} {e : Exchange} {side : OrderType} {r b : Nat} {o best : Order}

theorem Match.amount_pos (hB : BookOk e) (h : Match e side r b o best) : 1 ≤ matchAmount o best := by
  have h1 := hB.positive r o h.incoming h.isOpen
  have h2 := hB.positive b best h.inBook h.bookOpen
  unfold matchAmount
  omega

/-- **The book after a match**: the two orders are filled, every other order is as before. -/
theorem applyMatch_book (h : Match e side r b o best) (k : Nat) :
    (applyMatch fee e side r b o best).orderbook[k]? =
      if k = r then some (o.fill (matchAmount o best))
      else if k = b then some (best.fill (matchAmount o best)) else e.orderbook[k]? := by
  have hne := h.ne
  show ((e.orderbook.modify b _).modify r _)[k]? = _
  by_cases hr : k = r
  · subst hr
    rw [if_pos rfl, List.getElem?_modify_eq, List.getElem?_modify_ne _ _ hne.symm, h.incoming]
    rfl
  · rw [if_neg hr, List.getElem?_modify_ne _ _ (Ne.symm hr)]
    by_cases hb : k = b
    · subst hb
      rw [if_pos rfl, List.getElem?_modify_eq, h.inBook]
      rfl
    · rw [if_neg hb, List.getElem?_modify_ne _ _ (Ne.symm hb)]

@[simp] theorem applyMatch_book_length :
    (applyMatch fee e side r b o best).orderbook.length = e.orderbook.length := by
  simp [applyMatch]

@[simp] theorem applyMatch_traders_length :
    (applyMatch fee e side r b o best).traders.length = e.traders.length := by
  simp [applyMatch, settle]

variable (fee) in
theorem bookOk_applyMatch (hB : BookOk e) (h : Match e side r b o best) :
    BookOk (applyMatch fee e side r b o best) := by
  refine ⟨fun k x hx => ?_, fun k x hx => ?_, fun k x hx => ?_, fun k x hx hc => ?_⟩ <;>
    rw [applyMatch_book h] at hx
  · split at hx
    · rename_i hk
      cases hx
      rw [fill_orderIndex, hk]
      exact hB.index r o h.incoming
    · split at hx
      · rename_i hk
        cases hx
        rw [fill_orderIndex, hk]
        exact hB.index b best h.inBook
      · exact hB.index k x hx
  · rw [applyMatch_traders_length]
    split at hx
    · cases hx
      rw [fill_trader]
      exact hB.owner r o h.incoming
    · split at hx
      · cases hx
        rw [fill_trader]
        exact hB.owner b best h.inBook
      · exact hB.owner k x hx
  · split at hx
    · cases hx
      rw [fill_item]
      exact hB.item r o h.incoming
    · split at hx
      · cases hx
        rw [fill_item]
        exact hB.item b best h.inBook
      · exact hB.item k x hx
  · have hopen : ∀ y : Order, (y.fill (matchAmount o best)).completed = false →
        1 ≤ (y.fill (matchAmount o best)).quantity := by
      intro y hy
      have hn : ¬ (y.completed = true ∨ y.quantity - matchAmount o best ≤ 0) := fun hf => by
        rw [fill_completed.mpr hf] at hy
        cases hy
      rw [fill_quantity]
      omega
    split at hx
    · cases hx
      exact hopen o hc
    · split at hx
      · cases hx
        exact hopen best hc
      · exact hB.positive k x hx hc

end AfterMatch

/-! ## 4. The calls until NULL end -/

/-- The open orders of the book. -/
def openCount (e : Exchange) : Nat := e.orderbook.countP fun o => !o.completed

theorem countP_modify_le {α : Type*} {p : α → Bool} {f : α → α}
    (hf : ∀ x, p (f x) = true → p x = true) :
    ∀ (l : List α) (i : Nat), (l.modify i f).countP p ≤ l.countP p
  | [], i => by simp
  | x :: l, 0 => by
      rw [List.modify_zero_cons, List.countP_cons, List.countP_cons]
      by_cases h : p (f x) = true
      · rw [if_pos h, if_pos (hf x h)]
      · rw [if_neg h]
        omega
  | x :: l, i + 1 => by
      have := countP_modify_le hf l i
      rw [List.modify_succ_cons, List.countP_cons, List.countP_cons]
      omega

theorem countP_modify_lt {α : Type*} {p : α → Bool} {f : α → α} {x : α} (hx : p x = true)
    (hfx : ¬ p (f x) = true) :
    ∀ (l : List α) (i : Nat), l[i]? = some x → (l.modify i f).countP p < l.countP p
  | [], i, h => by simp at h
  | y :: l, 0, h => by
      have e : y = x := by simpa using h
      subst e
      rw [List.modify_zero_cons, List.countP_cons, List.countP_cons, if_neg hfx, if_pos hx]
      omega
  | y :: l, i + 1, h => by
      have := countP_modify_lt hx hfx l i (by simpa using h)
      rw [List.modify_succ_cons, List.countP_cons, List.countP_cons]
      omega

/-- **A match closes an order.** -/
theorem openCount_applyMatch (fee : Int → Int) {e : Exchange} {side : OrderType} {r b : Nat}
    {o best : Order} (h : Match e side r b o best) :
    openCount (applyMatch fee e side r b o best) < openCount e := by
  have hmono : ∀ x : Order, (!(x.fill (matchAmount o best)).completed) = true →
      (!x.completed) = true := by
    intro x hx
    rw [Bool.not_eq_true'] at hx ⊢
    refine Bool.eq_false_iff.mpr fun hc => ?_
    rw [fill_completed.mpr (Or.inl hc)] at hx
    cases hx
  have hclosed : ∀ x : Order, x.quantity = matchAmount o best →
      ¬ (!(x.fill (matchAmount o best)).completed) = true := by
    intro x hx
    rw [fill_completed.mpr (Or.inr (by omega))]
    simp
  unfold openCount applyMatch
  simp only
  by_cases hq : best.quantity ≤ o.quantity
  · have hb : best.quantity = matchAmount o best := by unfold matchAmount; omega
    exact Nat.lt_of_le_of_lt (countP_modify_le hmono _ _)
      (countP_modify_lt (by rw [h.bookOpen]; rfl) (hclosed best hb) _ _ h.inBook)
  · have ho : o.quantity = matchAmount o best := by unfold matchAmount; omega
    refine Nat.lt_of_lt_of_le
      (countP_modify_lt (by rw [h.isOpen]; rfl) (hclosed o ho) _ _ ?_) (countP_modify_le hmono _ _)
    rw [List.getElem?_modify_ne _ _ h.ne.symm]
    exact h.incoming

/-- The calls of `placeBuyOrder` (`placeSellOrder`) with one order until NULL: the trades, and
    the state they leave. -/
abbrev Sweep (fee : Int → Int) (side : OrderType) (order : Option Nat) :
    Exchange → List Trade → Exchange → Prop :=
  Repeats fun e => placeFor fee side e order

/-- A call that returns a trade keeps the book in order and closes an order. -/
theorem placeFor_some {fee : Int → Int} {e e' : Exchange} {side : OrderType} {order : Option Nat}
    {t : Trade} (hB : BookOk e) (h : placeFor fee side e order = (some t, e')) :
    BookOk e' ∧ openCount e' < openCount e := by
  rcases placeFor_cases fee hB side order with ⟨h', _⟩ | ⟨r, b, o, best, _, hM, h'⟩
  · rw [h'] at h
    cases h
  · rw [h'] at h
    cases h
    exact ⟨bookOk_applyMatch fee hB hM, openCount_applyMatch fee hM⟩

/-- **The calls until NULL end.** -/
theorem sweep_total (fee : Int → Int) (side : OrderType) (order : Option Nat) {e : Exchange}
    (hB : BookOk e) :
    ∃ ts e', Sweep fee side order e ts e' ∧ ts.length ≤ openCount e :=
  repeats_total (I := BookOk) (fun _ _ _ hs h => placeFor_some hs h) _ e (Nat.le_refl _) hB

/-- main's loop, given rounds enough, returns the trades and the state of the sweep. -/
theorem tradeLoop_of_sweep {fee : Int → Int} {side : OrderType} {order : Option Nat} {e e' : Exchange}
    {ts : List Trade} (h : Sweep fee side order e ts e') :
    ∀ n, ts.length ≤ n → (tradeLoop fee side order n (placeFor fee side e order)).1 = ts ∧
      (tradeLoop fee side order n (placeFor fee side e order)).2.2 = e' := by
  induction h with
  | stop h =>
      intro n _
      rw [h]
      cases n <;> exact ⟨rfl, rfl⟩
  | more h _ ih =>
      intro n hn
      rw [h]
      cases n with
      | zero => cases hn
      | succ n =>
          obtain ⟨h1, h2⟩ := ih n (Nat.le_of_succ_le_succ hn)
          exact ⟨congrArg _ h1, h2⟩

theorem openCount_le (e : Exchange) : openCount e ≤ e.orderbook.length := List.countP_le_length

/-- **The rounds of main's loop are enough**: it ends because a call returned NULL. -/
theorem tradeLoop_done (fee : Int → Int) (side : OrderType) (order : Option Nat) {e : Exchange}
    (hB : BookOk e) :
    Sweep fee side order e
      (tradeLoop fee side order e.orderbook.length (placeFor fee side e order)).1
      (tradeLoop fee side order e.orderbook.length (placeFor fee side e order)).2.2 := by
  obtain ⟨ts, e', hs, hl⟩ := sweep_total fee side order hB
  obtain ⟨h1, h2⟩ := tradeLoop_of_sweep hs e.orderbook.length (hl.trans (openCount_le e))
  rw [h1, h2]
  exact hs

end SysProg.Pe
