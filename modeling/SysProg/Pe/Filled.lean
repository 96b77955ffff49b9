/-
  File:      SysProg/Pe/Filled.lean
  Subject:   NO ORDER IS OVERFILLED, OR TRADED AFTER IT IS CLOSED.

  The accepted quantity of an order is the one it was handed to
  `marketAddOrder` with. The book does not keep it; `accepted` collects it
  along a run, one entry for each order of the book.

  * `Later` -- what a closed order is safe from: its fields and its share of
    the trade log are final;
  * `Filled` -- accepted quantity = quantity left + quantity traded;
  * `order_filled` -- both, in every reachable state.
-/
import SysProg.Pe.Sound

namespace SysProg.Pe

open Lib

/-! ## 1. The share of an order in the trade log -/

/-- The trade is one of the order at position `k`. -/
def Trade.involves (k : Nat) (x : Trade) : Bool := x.incomingOrder = k || x.orderInBook = k

/-- The sum of `transaction_quantity` over the trades of the order at position `k`. -/
def tradedQuantity (k : Nat) (ts : List Trade) : Int :=
  ((ts.filter (Trade.involves k)).map (·.transactionQuantity)).sum

@[simp] theorem tradedQuantity_nil (k : Nat) : tradedQuantity k [] = 0 := rfl

theorem tradedQuantity_append (k : Nat) (ts us : List Trade) :
    tradedQuantity k (ts ++ us) = tradedQuantity k ts + tradedQuantity k us := by
  simp [tradedQuantity]

theorem tradedQuantity_cons (k : Nat) (x : Trade) (ts : List Trade) :
    tradedQuantity k (x :: ts) =
      (if x.involves k then x.transactionQuantity else 0) + tradedQuantity k ts := by
  unfold tradedQuantity
  by_cases h : x.involves k = true
  · rw [List.filter_cons_of_pos h, if_pos h]
    simp
  · rw [List.filter_cons_of_neg h, if_neg h]
    simp

theorem tradedQuantity_singleton (k : Nat) (x : Trade) :
    tradedQuantity k [x] = if x.involves k then x.transactionQuantity else 0 := by
  rw [tradedQuantity_cons, tradedQuantity_nil, Int.add_zero]

theorem tradedQuantity_eq_zero {k : Nat} {ts : List Trade} (h : ∀ x ∈ ts, x.involves k = false) :
    tradedQuantity k ts = 0 := by
  unfold tradedQuantity
  rw [List.filter_eq_nil_iff.mpr fun x hx => by rw [h x hx]; exact Bool.false_ne_true]
  rfl

theorem tradedQuantity_nonneg {k : Nat} {ts : List Trade}
    (h : ∀ x ∈ ts, 1 ≤ x.transactionQuantity) : 0 ≤ tradedQuantity k ts := by
  induction ts with
  | nil => exact Int.le_refl 0
  | cons x ts ih =>
      obtain ⟨hx, hts⟩ := List.forall_mem_cons.mp h
      have hrest := ih hts
      rw [tradedQuantity_cons]
      split <;> omega

theorem matchTrade_involves {fee : Int → Int} {r b k : Nat} {o best : Order} :
    (matchTrade fee r b o best).involves k = true ↔ k = r ∨ k = b := by
  show (decide (r = k) || decide (b = k)) = true ↔ _
  rw [Bool.or_eq_true, decide_eq_true_eq, decide_eq_true_eq]
  exact or_congr eq_comm eq_comm

/-! ## 2. The quantities after the calls of one order -/

/-- `x` has been drawn down to `x'` by the quantity `q`, and closed only when nothing was left. -/
structure Drawn (q : Int) (x x' : Order) : Prop extends Evolves x x' where
  quantity : x'.quantity + q = x.quantity
  closed : x'.completed = true → x.completed = true ∨ x'.quantity = 0

theorem Drawn.refl (x : Order) : Drawn 0 x x := ⟨Evolves.refl x, Int.add_zero _, Or.inl⟩

theorem Drawn.trans {q q' : Int} {x x' x'' : Order} (h : Drawn q x x') (h' : Drawn q' x' x'') :
    Drawn (q + q') x x'' := by
  have h1 := h.quantity
  have h2 := h'.quantity
  refine ⟨h.toEvolves.trans h'.toEvolves, by omega, fun hc => ?_⟩
  rcases h'.closed hc with hc' | h0
  · rcases h.closed hc' with hc'' | h0
    · exact Or.inl hc''
    · rw [h'.frozen hc']
      exact Or.inr h0
  · exact Or.inr h0

/-- An order that nothing was drawn from is as it was. -/
theorem Drawn.eq {x x' : Order} (h : Drawn 0 x x') (hpos : x.completed = false → 1 ≤ x.quantity) :
    x' = x := by
  cases hc : x.completed with
  | true => exact h.frozen hc
  | false =>
      have hq := h.quantity
      have hp := hpos hc
      have hc' : x'.completed = false := by
        refine Bool.eq_false_iff.mpr fun ht => ?_
        rcases h.closed ht with h' | h'
        · rw [hc] at h'
          cases h'
        · omega
      obtain ⟨t, i, q, p, tr, d, ix, c⟩ := x
      obtain ⟨t', i', q', p', tr', d', ix', c'⟩ := x'
      obtain ⟨⟨h1, h2, h3, h4, h5, h6, _⟩, _, _⟩ := h
      simp only at h1 h2 h3 h4 h5 h6 hq hc hc'
      subst h1 h2 h3 h4 h5 h6 hc hc'
      rw [Int.add_zero] at hq
      rw [hq]

theorem drawn_fill {q : Int} {x : Order} (ho : x.completed = false) (hq : q ≤ x.quantity) :
    Drawn q x (x.fill q) := by
  refine ⟨evolves_fill q ho, by rw [fill_quantity]; omega, fun hc => ?_⟩
  rcases fill_completed.mp hc with h | h
  · exact Or.inl h
  · rw [fill_quantity]
    exact Or.inr (by omega)

/-- **What a match moves**: each of the two orders by the quantity traded, no other order. -/
theorem match_drawn (fee : Int → Int) {e : Exchange} {side : OrderType} {r b k : Nat}
    {o best x : Order} (h : Match e side r b o best) (hx : e.orderbook[k]? = some x) :
    ∃ x', (applyMatch fee e side r b o best).orderbook[k]? = some x' ∧
      Drawn (tradedQuantity k [matchTrade fee r b o best]) x x' := by
  rw [applyMatch_book h, tradedQuantity_singleton]
  by_cases hr : k = r
  · subst hr
    rw [h.incoming] at hx
    cases hx
    rw [if_pos rfl, if_pos (matchTrade_involves.mpr (Or.inl rfl))]
    exact ⟨_, rfl, drawn_fill h.isOpen (Int.min_le_left _ _)⟩
  · rw [if_neg hr]
    by_cases hb : k = b
    · subst hb
      rw [h.inBook] at hx
      cases hx
      rw [if_pos rfl, if_pos (matchTrade_involves.mpr (Or.inr rfl))]
      exact ⟨_, rfl, drawn_fill h.bookOpen (Int.min_le_right _ _)⟩
    · rw [if_neg hb, if_neg fun hi => (matchTrade_involves.mp hi).elim hr hb]
      exact ⟨x, hx, Drawn.refl x⟩

/-- **What the calls until NULL move**: every order by its share of the trades made, which are
    the new end of the log. -/
theorem sweep_drawn {fee : Int → Int} {side : OrderType} {order : Option Nat} {e e' : Exchange}
    {ts : List Trade} (h : Sweep fee side order e ts e') (hB : BookOk e) :
    BookOk e' ∧ e'.completedTrades = e.completedTrades ++ ts ∧
      e'.orderbook.length = e.orderbook.length ∧
      ∀ (k : Nat) (x : Order), e.orderbook[k]? = some x →
        ∃ x', e'.orderbook[k]? = some x' ∧ Drawn (tradedQuantity k ts) x x' := by
  induction h with
  | @stop e e' h =>
      rcases placeFor_cases fee hB side order with ⟨h', _⟩ | ⟨r, b, o, best, _, _, h'⟩
      · rw [h'] at h
        cases h
        exact ⟨hB, (List.append_nil _).symm, rfl, fun k x hx => ⟨x, hx, Drawn.refl x⟩⟩
      · rw [h'] at h
        cases h
  | @more e e₁ e' t ts h _ ih =>
      rcases placeFor_cases fee hB side order with ⟨h', _⟩ | ⟨r, b, o, best, _, hM, h'⟩
      · rw [h'] at h
        cases h
      · rw [h'] at h
        cases h
        obtain ⟨hB', hlog, hlen, hdrawn⟩ := ih (bookOk_applyMatch fee hB hM)
        refine ⟨hB', ?_, hlen.trans applyMatch_book_length, fun k x hx => ?_⟩
        · rw [hlog]
          exact List.append_assoc _ _ _
        · obtain ⟨x₁, hx₁, hd₁⟩ := match_drawn fee hM hx
          obtain ⟨x', hx', hd'⟩ := hdrawn k x₁ hx₁
          refine ⟨x', hx', ?_⟩
          have hsum := tradedQuantity_append k [matchTrade fee r b o best] ts
          rw [List.singleton_append] at hsum
          rw [hsum]
          exact hd₁.trans hd'

/-! ## 3. Closed orders -/

/-- The book has grown, and no trade since then is one of an order that was closed. -/
structure Later (e e' : Exchange) : Prop where
  book : Grows e.orderbook e'.orderbook
  log : ∃ l, e'.completedTrades = e.completedTrades ++ l ∧
    ∀ x ∈ l, ∀ (k : Nat) (o : Order), e.orderbook[k]? = some o → o.completed = true →
      x.involves k = false

theorem later_of_log {e e' : Exchange} (hg : Grows e.orderbook e'.orderbook)
    (ht : e'.completedTrades = e.completedTrades) : Later e e' :=
  ⟨hg, [], by rw [ht, List.append_nil], fun _ hx => absurd hx List.not_mem_nil⟩

theorem Later.refl (e : Exchange) : Later e e := later_of_log (Grows.refl _) rfl

theorem Later.trans {e e' e'' : Exchange} (h : Later e e') (h' : Later e' e'') : Later e e'' := by
  obtain ⟨l, hl, hno⟩ := h.log
  obtain ⟨l', hl', hno'⟩ := h'.log
  refine ⟨h.book.trans h'.book, l ++ l', by rw [hl', hl, List.append_assoc], fun x hx k o ho hc => ?_⟩
  rcases List.mem_append.mp hx with hx | hx
  · exact hno x hx k o ho hc
  · -- a closed order is the same order in between
    obtain ⟨o', ho', he⟩ := h.book k o ho
    rw [he.frozen hc] at ho'
    exact hno' x hx k o ho' hc

theorem later_match {fee : Int → Int} {e : Exchange} {side : OrderType} {r b : Nat} {o best : Order}
    (h : Match e side r b o best) : Later e (applyMatch fee e side r b o best) := by
  refine ⟨grows_match _ h, [matchTrade fee r b o best], rfl, fun x hx k y hy hc => ?_⟩
  rw [List.mem_singleton.mp hx]
  refine Bool.eq_false_iff.mpr fun hi => ?_
  rcases matchTrade_involves.mp hi with rfl | rfl
  · rw [h.incoming] at hy
    cases hy
    rw [h.isOpen] at hc
    cases hc
  · rw [h.inBook] at hy
    cases hy
    rw [h.bookOpen] at hc
    cases hc

theorem later_next (fee : Int → Int) {m : Main} (hS : Sound m.exchange) (i : Input) :
    Later m.exchange (mainNext fee m i).exchange := by
  refine (mainNext_inv (I := Later m.exchange)
    (fun e side r b o best _ hl hM => hl.trans (later_match hM)) hS ?_ ?_ ?_ ?_ ?_).2
  · exact fun t o _ _ => later_of_log (grows_append _ _) rfl
  · exact fun t k o old _ hold => later_of_log (grows_replace hold) rfl
  · exact fun _ => Later.refl _
  · exact fun r o _ hr ho => later_of_log (grows_close hr ho) rfl
  · exact fun _ _ => later_of_log (Grows.refl _) rfl

/-- What an AMEND has closed takes no part in the matches that follow in the same step. -/
theorem later_replaced (fee : Int → Int) {m : Main} {i : Input} {t k : Nat} {o : Order}
    (hS : Sound m.exchange) (h : entryOf m i = .amended t k o) :
    Later (replaceOrder m.exchange t k o) (mainNext fee m i).exchange := by
  refine (mainNext_inv (I := Later (replaceOrder m.exchange t k o))
    (fun e side r b o best _ hl hM => hl.trans (later_match hM)) hS ?_ ?_ ?_ ?_ ?_).2
  · intro t' o' h'
    rw [h] at h'
    cases h'
  · intro t' k' o' old h' _
    rw [h] at h'
    cases h'
    exact Later.refl _
  · intro h'
    rw [h] at h'
    cases h'
  · intro r o' h'
    rw [h] at h'
    cases h'
  · intro pid hi
    rw [hi] at h
    cases h

theorem later_run (fee : Int → Int) :
    ∀ (is : List Input) {m : Main}, MainOk m →
      Later m.exchange (run (mainNext fee) m is).exchange := by
  intro is
  induction is with
  | nil => exact fun _ => Later.refl _
  | cons i is ih => exact fun h => (later_next fee h.sound i).trans (ih (mainOk_next fee h i))

/-! ## 4. Accepted quantities -/

def Entry.quantities : Entry → List Int
  | .none => []
  | .new _ o => [o.quantity]
  | .amended _ _ o => [o.quantity]

/-- The quantities of the orders a run hands to `marketAddOrder`, in order. -/
def accepted (fee : Int → Int) : Main → List Input → List Int
  | _, [] => []
  | m, i :: is => (entryOf m i).quantities ++ accepted fee (mainNext fee m i) is

/-- Of each order, the quantity left and the quantity traded add up to the one accepted. -/
structure Filled (acc : List Int) (e : Exchange) : Prop where
  length : acc.length = e.orderbook.length
  sum : ∀ (k : Nat) (o : Order) (a : Int), e.orderbook[k]? = some o → acc[k]? = some a →
    o.quantity + tradedQuantity k e.completedTrades = a
  amounts : ∀ x ∈ e.completedTrades, 1 ≤ x.transactionQuantity

theorem filled_match {fee : Int → Int} {acc : List Int} {e : Exchange} {side : OrderType} {r b : Nat}
    {o best : Order} (hS : Sound e) (hF : Filled acc e) (h : Match e side r b o best) :
    Filled acc (applyMatch fee e side r b o best) := by
  refine ⟨hF.length.trans applyMatch_book_length.symm, fun k x a hx ha => ?_, fun x hx => ?_⟩
  · obtain ⟨y, hy, _⟩ := (grows_match fee h).back applyMatch_book_length hx
    obtain ⟨x', hx', hd⟩ := match_drawn fee h hy
    rw [hx] at hx'
    cases hx'
    have hq := hd.quantity
    have hsum := hF.sum k y a hy ha
    show x.quantity + tradedQuantity k (e.completedTrades ++ [_]) = a
    rw [tradedQuantity_append]
    omega
  · rcases List.mem_append.mp hx with hx | hx
    · exact hF.amounts x hx
    · rw [List.mem_singleton.mp hx]
      exact h.amount_pos hS.toBookOk

/-- A change of the book that leaves quantities and trades alone. -/
theorem filled_of_quantities {acc : List Int} {e e' : Exchange} (hF : Filled acc e)
    (hlen : e'.orderbook.length = e.orderbook.length) (ht : e'.completedTrades = e.completedTrades)
    (hq : ∀ (k : Nat) (o' : Order), e'.orderbook[k]? = some o' →
      ∃ o, e.orderbook[k]? = some o ∧ o'.quantity = o.quantity) : Filled acc e' := by
  refine ⟨hF.length.trans hlen.symm, fun k o' a ho' ha => ?_, fun x hx => hF.amounts x (ht ▸ hx)⟩
  obtain ⟨o, ho, hoq⟩ := hq k o' ho'
  rw [hoq, ht]
  exact hF.sum k o a ho ha

theorem filled_close {acc : List Int} {e : Exchange} (hF : Filled acc e) (r : Nat) :
    Filled acc (e.onOrder r closeOrder) := by
  refine filled_of_quantities hF (List.length_modify _ _ _) rfl fun k o' ho' => ?_
  obtain ⟨o, ho, ⟨_, rfl⟩ | ⟨_, rfl⟩⟩ := getElem?_modify_of ho'
  · exact ⟨o', ho, rfl⟩
  · exact ⟨o, ho, rfl⟩

/-- No trade of the log is one of an order still to come. -/
theorem not_involves_new {e : Exchange} (hS : Sound e) {x : Trade} (hx : x ∈ e.completedTrades) :
    x.involves e.orderbook.length = false := by
  obtain ⟨o, b, ho, hb, _⟩ := hS.trades x hx
  have h1 := (List.getElem?_eq_some_iff.mp ho).1
  have h2 := (List.getElem?_eq_some_iff.mp hb).1
  simp only [Trade.involves, Bool.or_eq_false_iff, decide_eq_false_iff_not]
  omega

theorem filled_append {acc : List Int} {e : Exchange} (hS : Sound e) (hF : Filled acc e)
    (o : Order) : Filled (acc ++ [o.quantity]) (marketAddOrder e o) := by
  refine ⟨?_, fun k x a hx ha => ?_, hF.amounts⟩
  · show (acc ++ [_]).length = (e.orderbook ++ [_]).length
    rw [List.length_append, List.length_append, hF.length]
    rfl
  · show x.quantity + tradedQuantity k e.completedTrades = a
    rcases getElem?_snoc hx with hx | ⟨rfl, rfl⟩
    · have hk := (List.getElem?_eq_some_iff.mp hx).1
      rw [List.getElem?_append_left (by rw [hF.length]; exact hk)] at ha
      exact hF.sum k x a hx ha
    · rw [← hF.length, List.getElem?_concat_length] at ha
      cases ha
      rw [tradedQuantity_eq_zero fun x hx => not_involves_new hS hx]
      exact Int.add_zero _

theorem filled_next (fee : Int → Int) {acc : List Int} {m : Main} (hS : Sound m.exchange)
    (hF : Filled acc m.exchange) (i : Input) :
    Filled (acc ++ (entryOf m i).quantities) (mainNext fee m i).exchange := by
  have hnone : entryOf m i = .none → acc ++ (entryOf m i).quantities = acc := by
    intro h
    rw [h]
    exact List.append_nil acc
  refine (mainNext_inv (I := Filled (acc ++ (entryOf m i).quantities))
    (fun e side r b o best hS hF hM => filled_match hS hF hM) hS ?_ ?_ ?_ ?_ ?_).2
  · intro t o h _
    rw [h]
    obtain ⟨h1, h2, h3⟩ := filled_append hS hF o
    exact ⟨h1, h2, h3⟩
  · intro t k o old h _
    rw [h]
    obtain ⟨h1, h2, h3⟩ := filled_close (filled_append hS hF o) k
    exact ⟨h1, h2, h3⟩
  · intro h
    rw [hnone h]
    exact hF
  · intro r o h _ _
    rw [hnone h]
    exact filled_close hF r
  · intro pid hi
    rw [hnone (by rw [hi]; rfl)]
    exact ⟨hF.length, hF.sum, hF.amounts⟩

theorem filled_run (fee : Int → Int) :
    ∀ (is : List Input) {acc : List Int} {m : Main}, MainOk m → Filled acc m.exchange →
      Filled (acc ++ accepted fee m is) (run (mainNext fee) m is).exchange := by
  intro is
  induction is with
  | nil =>
      intro acc m _ hF
      show Filled (acc ++ []) _
      rw [List.append_nil]
      exact hF
  | cons i is ih =>
      intro acc m h hF
      show Filled (acc ++ ((entryOf m i).quantities ++ _)) _
      rw [← List.append_assoc]
      exact ih (mainOk_next fee h i) (filled_next fee h.sound hF i)

/-! ## 5. Every reachable state -/

/-- **No order is overfilled, or traded after it is closed.** In every reachable state every order
    of the book has an accepted quantity; what is left of it lies between 0 and that, the rest has
    been traded, in pieces of at least 1; an order of quantity 0 is closed; an order is at its
    index; a closed order stays as it is in every continuation, and no later trade is one of it,
    also when the order was closed by an AMEND whose own matches are still to come. -/
theorem order_filled (fee : Int → Int) (products : List Word) (pids : List Nat) (argv : List Word)
    (is : List Input) :
    let m := mainRun fee products pids argv is
    let acc := accepted fee (mainInit products pids argv) is
    acc.length = m.exchange.orderbook.length ∧
    (∀ x ∈ m.exchange.completedTrades, 1 ≤ x.transactionQuantity) ∧
    (∀ (k : Nat) (o : Order), m.exchange.orderbook[k]? = some o →
      ∃ a, acc[k]? = some a ∧ 0 ≤ o.quantity ∧ o.quantity ≤ a ∧
        a - o.quantity = tradedQuantity k m.exchange.completedTrades ∧
        (o.quantity = 0 → o.completed = true) ∧ o.orderIndex = k ∧
        (o.completed = true → ∀ js,
          (run (mainNext fee) m js).exchange.orderbook[k]? = some o ∧
          ∃ l, (run (mainNext fee) m js).exchange.completedTrades = m.exchange.completedTrades ++ l ∧
            ∀ x ∈ l, x.involves k = false)) ∧
    (∀ (i : Input) (t k : Nat) (o : Order), entryOf m i = .amended t k o →
      ∃ l, (mainNext fee m i).exchange.completedTrades = m.exchange.completedTrades ++ l ∧
        ∀ x ∈ l, x.involves k = false) := by
  intro m acc
  have hok : MainOk m := mainOk_run fee products pids argv is
  have hF : Filled acc m.exchange := by
    have h0 : Filled [] (mainInit products pids argv).exchange :=
      ⟨rfl, fun k o a ho => absurd ho (by cases k <;> exact fun h => by cases h),
        fun x hx => absurd hx List.not_mem_nil⟩
    have h := filled_run fee is (mainOk_init products pids argv) h0
    rw [List.nil_append] at h
    exact h
  refine ⟨hF.length, hF.amounts, fun k o hk => ?_, fun i t k o h => ?_⟩
  · have hlt := (List.getElem?_eq_some_iff.mp hk).1
    rw [← hF.length] at hlt
    refine ⟨_, List.getElem?_eq_getElem hlt, hok.sound.nonneg k o hk, ?_, ?_, fun hq => ?_,
      hok.sound.index k o hk, fun hc js => ?_⟩
    · have h1 := hF.sum k o _ hk (List.getElem?_eq_getElem hlt)
      have h2 := tradedQuantity_nonneg (k := k) hF.amounts
      omega
    · have h1 := hF.sum k o _ hk (List.getElem?_eq_getElem hlt)
      omega
    · by_contra hopen
      have h1 := hok.sound.positive k o hk (Bool.eq_false_iff.mpr hopen)
      omega
    · obtain ⟨hg, l, hl, hno⟩ := later_run fee js hok
      obtain ⟨o', ho', he⟩ := hg k o hk
      rw [he.frozen hc] at ho'
      exact ⟨ho', l, hl, fun x hx => hno x hx k o hk hc⟩
  · obtain ⟨old, hold⟩ := entryOf_amended hok.sound.toBookOk h
    obtain ⟨_, l, hl, hno⟩ := later_replaced fee hok.sound h
    refine ⟨l, hl, fun x hx => hno x hx k (closeOrder old) ?_ rfl⟩
    show ((m.exchange.orderbook ++ [_]).modify k closeOrder)[k]? = _
    rw [List.getElem?_modify_eq,
      List.getElem?_append_left (List.getElem?_eq_some_iff.mp hold.place).1, hold.place]
    rfl

end SysProg.Pe
