/-
  File:      SysProg/Pe/EngineRun.lean
  Subject:   THE EXCHANGE IS A PRICE-TIME ENGINE.

  The code keeps one growing array of orders, and filters, sorts and looks up
  again for every trade. The engine beside it is asked for what the exchange
  accepts. Both show the same lines and the same deals after every step,
  unless an AMEND does not fit (`AmendFits`, Crossed.lean).

  * `engine_close` -- an order leaves;
  * `next_none_cases` -- what a CANCEL does, and every other step that enters
    nothing;
  * `next_amended_cases`, `amended_arrived` -- what an AMEND does;
  * `engine_next_iff` -- one step;
  * `exchange_is_engine` -- every run.
-/
import SysProg.Pe.EngineEnter

namespace SysProg.Pe

open Lib

/-! ## 1. An order leaves -/

section Leaving

variable {e : Exchange} {r : Nat} {o : Order}

theorem bookInOrder_of_bookOk (hB : BookOk e) : BookInOrder e.orderbook := ⟨hB.index, hB.positive⟩

theorem bookInOrder_close {book : List Order} (hB : BookInOrder book) (k : Nat) :
    BookInOrder (book.modify k closeOrder) := by
  refine ⟨indexed_close hB.index k, fun j b hb hopen => ?_⟩
  obtain ⟨b₀, hb₀, ⟨_, rfl⟩ | ⟨_, rfl⟩⟩ := getElem?_modify_of hb
  · exact hB.positive j b hb₀ hopen
  · cases hopen

theorem logInBook_of_sound (hS : Sound e) : LogInBook e := by
  intro y hy
  obtain ⟨a, b, ha, hb, _⟩ := hS.trades y hy
  exact ⟨(List.getElem?_eq_some_iff.mp ha).1, (List.getElem?_eq_some_iff.mp hb).1⟩

theorem keyAt_close (book : List Order) (r k : Nat) :
    keyAt (book.modify r closeOrder) k = keyAt book k := by
  unfold keyAt
  rw [List.getElem?_modify]
  cases book[k]? with
  | none => rfl
  | some b => split <;> rfl

/-- What stands in a line once one order is closed. -/
theorem inLine_close (hS : Sound e) (hN : Numbered e) (hr : e.orderbook[r]? = some o)
    (ho : o.completed = false) (side : OrderType) (x : Word) (b : Order) :
    InLine side x (e.orderbook.modify r closeOrder) b ↔
      InLine side x e.orderbook b ∧ (quote b).key ≠ (o.trader, o.orderId) := by
  constructor
  · intro h
    obtain ⟨hmem, hrest⟩ := h
    obtain ⟨k, hk⟩ := List.mem_iff_getElem?.mp hmem
    obtain ⟨b₀, hb₀, ⟨hne, rfl⟩ | ⟨_, rfl⟩⟩ := getElem?_modify_of hk
    · refine ⟨⟨List.mem_of_getElem? hb₀, hrest⟩, fun hkey => hne ?_⟩
      exact hN.open_unique hS hr hb₀ ho hrest.2.2 (congrArg Prod.fst hkey).symm
        (congrArg Prod.snd hkey).symm
    · exact absurd hrest.2.2 (by simp [closeOrder])
  · intro h
    obtain ⟨⟨hmem, hrest⟩, hkey⟩ := h
    obtain ⟨k, hk⟩ := List.mem_iff_getElem?.mp hmem
    refine ⟨List.mem_of_getElem? (i := k) ?_, hrest⟩
    rw [List.getElem?_modify_ne, hk]
    intro hrk
    rw [hrk, hk] at hr
    cases hr
    exact hkey rfl

/-- **The engine shown after an order is closed** has been asked to withdraw it. -/
theorem engine_close (hS : Sound e) (hN : Numbered e) (hr : e.orderbook[r]? = some o)
    (ho : o.completed = false) :
    engineOf (e.onOrder r closeOrder) = (engineOf e).withdraw (o.trader, o.orderId) := by
  refine Engine.ext (funext fun side => funext fun x => ?_) ?_
  · have hline := lined_lineOf hS.index side x
    have hleft : Lined (Precedes side) (InLine side x (e.orderbook.modify r closeOrder))
        ((lineOf side x e.orderbook).filter fun b => (quote b).key ≠ (o.trader, o.orderId)) := by
      refine ⟨hline.sorted.filter _, hline.nodup.filter _, fun b => ?_⟩
      rw [List.mem_filter, hline.mem, decide_eq_true_eq, inLine_close hS hN hr ho]
    show (lineOf side x (e.orderbook.modify r closeOrder)).map quote =
      ((lineOf side x e.orderbook).map quote).filter _
    rw [lineOf_eq (indexed_close hS.index r) hleft, List.filter_map]
    rfl
  · show e.completedTrades.filterMap (dealOf (e.orderbook.modify r closeOrder)) =
      e.completedTrades.filterMap (dealOf e.orderbook)
    refine List.filterMap_congr fun y _ => ?_
    unfold dealOf
    rw [keyAt_close, keyAt_close]

/-- Nothing to withdraw. -/
theorem engine_withdraw_none (hI : Indexed e.orderbook) {key : Nat × Int}
    (h : ∀ (k : Nat) (b : Order), e.orderbook[k]? = some b → b.completed = false →
      (b.trader, b.orderId) ≠ key) : (engineOf e).withdraw key = engineOf e := by
  refine Engine.ext (funext fun side => funext fun x => ?_) rfl
  show ((lineOf side x e.orderbook).map quote).filter _ = (lineOf side x e.orderbook).map quote
  refine List.filter_eq_self.mpr fun q hq => ?_
  obtain ⟨b, hb, rfl⟩ := List.mem_map.mp hq
  obtain ⟨hmem, hrest⟩ := ((lined_lineOf hI side x).mem b).mp hb
  exact decide_eq_true (h _ b (getElem?_index hI hmem) hrest.2.2)

end Leaving

/-! ## 2. Steps that enter nothing -/

section Steps

variable {fee : Int → Int} {m : Main} {i : Input}

/-- The open order of a trader with an id is the one `getOrder` finds. -/
theorem getOrder_of_open {e : Exchange} (hS : Sound e) (hN : Numbered e) {t k : Nat} {tr : Trader}
    {b : Order} (ht : e.traders[t]? = some tr) (hk : e.orderbook[k]? = some b)
    (hb : b.completed = false) (hbt : b.trader = t) :
    getOrder e.orderbook tr b.orderId = some k := by
  subst hbt
  obtain ⟨i, hi, hid⟩ := hN.open_entry hS hk hb ht
  rw [hid]
  exact hN.getOrder_eq ht hi

/-- What `getOrder` finds is an order of the trader with the id. -/
theorem getOrder_found {e : Exchange} (hS : Sound e) {t r : Nat} {tr : Trader} {d : Int}
    (ht : e.traders[t]? = some tr) (h : getOrder e.orderbook tr d = some r) :
    ∃ o, e.orderbook[r]? = some o ∧ o.trader = t ∧ o.orderId = d := by
  obtain ⟨o, ho, hot⟩ := hS.entries t tr r ht (List.mem_of_find?_eq_some h)
  have hid : idAt e.orderbook r = some d := by
    have hp := List.find?_some h
    exact of_decide_eq_true hp
  rw [idAt, ho] at hid
  exact ⟨o, ho, hot, Option.some.inj hid⟩

/-- What a CANCEL with a number does: it closes the open order of the sender with the id, or there
    is none. -/
theorem cancel_exchange (hS : Sound m.exchange) (hN : Numbered m.exchange) {argv : List Word}
    {sender : Nat} (pid : Nat) {tr : Trader} (ht : m.exchange.traders[sender]? = some tr)
    (hnum : isNumeric (argAt argv 1) = true) :
    (∃ r o, m.exchange.orderbook[r]? = some o ∧ o.completed = false ∧
      (o.trader, o.orderId) = (sender, atoi (argAt argv 1)) ∧
      (cancelRequest m argv sender pid tr).1.exchange = m.exchange.onOrder r closeOrder) ∨
    (∀ (k : Nat) (b : Order), m.exchange.orderbook[k]? = some b → b.completed = false →
      (b.trader, b.orderId) ≠ (sender, atoi (argAt argv 1))) ∧
      (cancelRequest m argv sender pid tr).1.exchange = m.exchange := by
  have hopen : ∀ (k : Nat) (b : Order), m.exchange.orderbook[k]? = some b → b.completed = false →
      (b.trader, b.orderId) = (sender, atoi (argAt argv 1)) →
      getOrder m.exchange.orderbook tr (atoi (argAt argv 1)) = some k := by
    intro k b hk hb hkey
    have hid : b.orderId = atoi (argAt argv 1) := congrArg Prod.snd hkey
    rw [← hid]
    exact getOrder_of_open hS hN ht hk hb (congrArg Prod.fst hkey)
  unfold cancelRequest
  rw [hnum, Bool.not_true, if_neg Bool.false_ne_true]
  cases hg : getOrder m.exchange.orderbook tr (atoi (argAt argv 1)) with
  | none =>
      refine Or.inr ⟨fun k b hk hb hkey => ?_, by simp only [hg]⟩
      rw [hopen k b hk hb hkey] at hg
      cases hg
  | some r =>
      obtain ⟨o, ho, hot, hid⟩ := getOrder_found hS ht hg
      cases hc : o.completed with
      | false => exact Or.inl ⟨r, o, ho, hc, by rw [hot, hid], by simp [hg, ho, hc]⟩
      | true =>
          refine Or.inr ⟨fun k b hk hb hkey => ?_, by simp [hg, ho, hc]⟩
          have hkr := hopen k b hk hb hkey
          rw [hg] at hkr
          cases hkr
          rw [ho] at hk
          cases hk
          rw [hc] at hb
          cases hb

/-- Book and log as they were, and no open order that was to be withdrawn. -/
def NothingLeft (e e' : Exchange) (key : Option (Nat × Int)) : Prop :=
  (∀ d, key = some d → ∀ (k : Nat) (b : Order), e.orderbook[k]? = some b → b.completed = false →
    (b.trader, b.orderId) ≠ d) ∧
  e'.orderbook = e.orderbook ∧ e'.completedTrades = e.completedTrades

theorem nothingLeft_none {e e' : Exchange} (hb : e'.orderbook = e.orderbook)
    (hl : e'.completedTrades = e.completedTrades) : NothingLeft e e' none :=
  ⟨fun _ h => (Option.some_ne_none _ h.symm).elim, hb, hl⟩

/-- A message that enters no order. -/
theorem message_none_cases (fee : Int → Int) (hS : Sound m.exchange) (hN : Numbered m.exchange)
    {sender pid : Nat} {tr : Trader} {text : List Char}
    (ht : m.exchange.traders[sender]? = some tr) (h : messageEntry m sender tr text = .none) :
    (∃ r o, m.exchange.orderbook[r]? = some o ∧ o.completed = false ∧
      messageWithdrawal m sender tr text = some (o.trader, o.orderId) ∧
      (handleMessage fee m sender pid tr text).1.exchange = m.exchange.onOrder r closeOrder) ∨
    NothingLeft m.exchange (handleMessage fee m sender pid tr text).1.exchange
      (messageWithdrawal m sender tr text) := by
  unfold messageEntry at h
  unfold messageWithdrawal handleMessage
  obtain ⟨⟨st, argv⟩, hmsg⟩ :
    ∃ p, readMessage (messageOf tr text) m.marketArgv m.exchange.products = p := ⟨_, rfl⟩
  rw [hmsg] at h ⊢
  cases st with
  | INVALID_MESSAGE => exact Or.inr (nothingLeft_none rfl rfl)
  | ORDER_RECEIVED =>
      simp only at h ⊢
      unfold orderReceived
      cases hnew : newOrder argv sender tr (orderTypeOf (argAt argv 0)) with
      | none => exact Or.inr (nothingLeft_none rfl rfl)
      | some o =>
          rw [hnew] at h
          cases h
  | AMEND_REQUEST =>
      simp only at h ⊢
      unfold amendRequest amend
      cases hs : amendSearch argv m.exchange sender tr with
      | none => exact Or.inr (nothingLeft_none rfl rfl)
      | some found =>
          rw [hs] at h
          cases h
  | CANCEL_REQUEST =>
      cases hnum : isNumeric (argAt argv 1) with
      | false =>
          refine Or.inr ?_
          simp only [hnum, Bool.false_eq_true, if_false, cancelRequest, Bool.not_false, if_true]
          exact nothingLeft_none rfl rfl
      | true =>
          rcases cancel_exchange hS hN pid ht hnum with
            ⟨r, o, hr, ho, hkey, he⟩ | ⟨hno, he⟩
          · exact Or.inl ⟨r, o, hr, ho, by simp only [if_pos hnum, hkey], he⟩
          · refine Or.inr ⟨fun d hd => ?_, ?_, ?_⟩
            · simp only [if_pos hnum] at hd
              cases hd
              exact hno
            · exact congrArg Exchange.orderbook he
            · exact congrArg Exchange.completedTrades he

/-- **A step that enters no order** closes the order it is to withdraw, or there is none. -/
theorem next_none_cases (fee : Int → Int) (hS : Sound m.exchange) (hN : Numbered m.exchange)
    (h : entryOf m i = .none) :
    (∃ r o, m.exchange.orderbook[r]? = some o ∧ o.completed = false ∧
      withdrawal m i = some (o.trader, o.orderId) ∧
      (mainNext fee m i).exchange = m.exchange.onOrder r closeOrder) ∨
    NothingLeft m.exchange (mainNext fee m i).exchange (withdrawal m i) := by
  unfold mainNext mainStep
  cases i with
  | poll pid exited =>
      refine Or.inr (nothingLeft_none ?_ ?_) <;>
      · unfold pollTraders
        simp only
        split
        · rfl
        · cases exited <;> rfl
  | command pid text =>
      unfold entryOf at h
      unfold withdrawal
      by_cases hd : m.exchangeDisconnect = true
      · simp only [hd, if_true]
        exact Or.inr (nothingLeft_none rfl rfl)
      · simp only [hd] at h ⊢
        cases hf : findTrader m.exchange.traders pid with
        | none => exact Or.inr (nothingLeft_none rfl rfl)
        | some sender =>
            cases ht : m.exchange.traders[sender]? with
            | none =>
                simp only [ht]
                exact Or.inr (nothingLeft_none rfl rfl)
            | some tr =>
                simp only [hf, ht] at h ⊢
                exact message_none_cases fee hS hN ht h

/-- **The engine and a step that enters no order.** -/
theorem engine_none (fee : Int → Int) (hS : Sound m.exchange) (hN : Numbered m.exchange)
    (h : entryOf m i = .none) :
    engineOf (mainNext fee m i).exchange = (engineOf m.exchange).answer (askOf m i) := by
  unfold askOf
  rw [h]
  rcases next_none_cases fee hS hN h with ⟨r, o, hr, ho, hw, he⟩ | ⟨hno, hbook, hlog⟩
  · rw [he, hw]
    exact engine_close hS hN hr ho
  · have hsame : engineOf (mainNext fee m i).exchange = engineOf m.exchange := by
      unfold engineOf
      rw [hbook, hlog]
    rw [hsame]
    cases hw : withdrawal m i with
    | none => rfl
    | some key => exact (engine_withdraw_none hS.index (hno key hw)).symm

/-- **The engine and a new order.** -/
theorem engine_new (fee : Int → Int) (hS : Sound m.exchange) (hN : Numbered m.exchange) {t : Nat}
    {o : Order} (h : entryOf m i = .new t o) :
    engineOf (mainNext fee m i).exchange = (engineOf m.exchange).enter (quote o) :=
  engine_arrived (bookInOrder_of_bookOk hS.toBookOk) (logInBook_of_sound hS) (entryOf_new h).isOpen
    (arrival_book fee hS hN h) (arrival_log fee hS hN h)

end Steps

/-! ## 3. AMEND -/

section Amending

variable {fee : Int → Int} {m : Main} {i : Input} {t k : Nat} {o old : Order}

/-- **What an AMEND of an uncrossed book does**: it enters the order and makes no trade, or one,
    with the first order it crosses. -/
theorem next_amended_cases (fee : Int → Int) (hok : MainOk m) (hN : Numbered m.exchange)
    (hU : Uncrossed m.exchange.orderbook) (h : entryOf m i = .amended t k o)
    (hold : AmendEntry m.exchange t k o old) :
    (queue o.orderType.other m.exchange.orderbook o.item o.unitPrice = [] ∧
      (mainNext fee m i).exchange = replaceOrder m.exchange t k o) ∨
    ∃ best bs, queue o.orderType.other m.exchange.orderbook o.item o.unitPrice = best :: bs ∧
      Match (replaceOrder m.exchange t k o) o.orderType m.exchange.orderbook.length
        best.orderIndex.toNat (placed m.exchange o) best ∧
      (mainNext fee m i).exchange = applyMatch fee (replaceOrder m.exchange t k o) o.orderType
        m.exchange.orderbook.length best.orderIndex.toNat (placed m.exchange o) best := by
  have hS₁ := sound_replace hok.sound hold
  have hN₁ : Numbered (replaceOrder m.exchange t k o) :=
    ⟨idsInOrder_replace hN.ids hold, newest_replace hN hold⟩
  have hQ := (queued_queue hok.sound.index o.orderType.other o.item o.unitPrice).agree
    (agreeOn_replace hold)
  have hnew := replaceOrder_new hold
  rcases placeFor_cases fee hS₁.toBookOk o.orderType (some m.exchange.orderbook.length) with
    ⟨hp, _⟩ | ⟨r, b, o', best, hr, hM, hp⟩
  · refine Or.inl ⟨List.eq_nil_iff_forall_not_mem.mpr fun b hb => ?_, ?_⟩
    · obtain ⟨hmem, hcross⟩ := (hQ.mem b).mp hb
      obtain ⟨j, hj⟩ := List.mem_iff_getElem?.mp hmem
      exact not_crossing_of_done hS₁.toBookOk hp hnew rfl hold.isOpen j b hj hcross
    · rcases (next_amended fee hok.sound h).2 with ⟨_, he⟩ | ⟨x, e₁, ts, hp', _⟩
      · exact he
      · rw [hp] at hp'
        cases hp'
  · cases hr
    have ho' : o' = placed m.exchange o := Option.some.inj (hM.incoming.symm.trans hnew)
    subst ho'
    obtain ⟨bs, hq, rfl⟩ := queued_match hS₁ hN₁ hM hQ
    exact Or.inr ⟨best, bs, hq, hM, next_amended_match hok hU h hold hM hp⟩

/-- The book without the order that is replaced, and the order that replaces it. -/
theorem replaceOrder_eq (hold : AmendEntry m.exchange t k o old) :
    (replaceOrder m.exchange t k o).orderbook = m.exchange.orderbook.modify k closeOrder ++
      [{ o with orderIndex := (m.exchange.orderbook.modify k closeOrder).length }] := by
  have hlt := (List.getElem?_eq_some_iff.mp hold.place).1
  rw [replaceOrder_book, List.length_modify]
  refine List.ext_getElem? fun j => ?_
  by_cases hj : j < m.exchange.orderbook.length
  · rw [List.getElem?_append_left (by rw [List.length_modify]; exact hj), List.getElem?_modify,
      List.getElem?_modify, List.getElem?_append_left hj]
  · rw [List.getElem?_modify_ne _ _ (by omega), List.getElem?_append_right (by omega),
      List.getElem?_append_right (by rw [List.length_modify]; omega), List.length_modify]

/-- The order replaced is of the other side's line for nobody. -/
theorem arrivalTrades_close (fee : Int → Int) (hold : AmendEntry m.exchange t k o old) (r : Nat) :
    arrivalTrades fee r (m.exchange.orderbook.modify k closeOrder) o =
      arrivalTrades fee r m.exchange.orderbook o := by
  have hagree : AgreeOn (openOf o.orderType.other) m.exchange.orderbook
      (m.exchange.orderbook.modify k closeOrder) := by
    refine agreeOn_modify _ fun y hy => ?_
    rw [hold.place] at hy
    cases hy
    exact ⟨openOf_of_type (hold.sameType ▸ o.orderType.other_ne.symm), openOf_of_closed rfl⟩
  unfold arrivalTrades queue
  rw [filter_agree (fun b hb => ?_) hagree]
  have hc := of_decide_eq_true hb
  exact openOf_iff.mpr ⟨hc.1.1, hc.1.2.2⟩

/-- An AMEND that fits makes the trades of the reference matcher. -/
theorem amended_arrived (fee : Int → Int) (hok : MainOk m) (hN : Numbered m.exchange)
    (hU : Uncrossed m.exchange.orderbook) (h : entryOf m i = .amended t k o)
    (hold : AmendEntry m.exchange t k o old) (hfits : AmendFits m i) :
    Arrived fee (m.exchange.orderbook.modify k closeOrder) o (mainNext fee m i).exchange.orderbook ∧
      (mainNext fee m i).exchange.completedTrades = m.exchange.completedTrades ++
        arrivalTrades fee (m.exchange.orderbook.modify k closeOrder).length
          (m.exchange.orderbook.modify k closeOrder) o := by
  have hB₁ := (sound_replace hok.sound hold).toBookOk
  have hkeep : ∀ j : Nat, ((replaceOrder m.exchange t k o).orderbook[j]?).map (Order.fill 0) =
      (replaceOrder m.exchange t k o).orderbook[j]? := by
    intro j
    cases hj : (replaceOrder m.exchange t k o).orderbook[j]? with
    | none => rfl
    | some b => exact congrArg some (fill_zero (hB₁.positive j b hj))
  unfold Arrived
  rw [arrivalTrades_close fee hold, ← replaceOrder_eq hold, List.length_modify]
  rcases next_amended_cases fee hok hN hU h hold with ⟨hq, he⟩ | ⟨best, bs, hq, hM, he⟩
  · have hts : arrivalTrades fee m.exchange.orderbook.length m.exchange.orderbook o = [] := by
      unfold arrivalTrades
      rw [hq]
      rfl
    rw [hts, he, List.append_nil]
    exact ⟨fun j => (hkeep j).symm, rfl⟩
  · have hpos := hold.positive
    have hts : arrivalTrades fee m.exchange.orderbook.length m.exchange.orderbook o =
        [matchTrade fee m.exchange.orderbook.length best.orderIndex.toNat (placed m.exchange o)
          best] := by
      unfold arrivalTrades
      rw [hq, referenceTrades, if_neg (by omega)]
      refine congrArg (List.cons _) ?_
      cases bs with
      | nil => rfl
      | cons c cs =>
          have hle := (amendFits_eq h).mp hfits best c cs hq
          exact referenceTrades_done (by omega) _
    rw [hts, he]
    refine ⟨fun j => ?_, rfl⟩
    rw [applyMatch_book hM, tradedQuantity_singleton]
    by_cases hjr : j = m.exchange.orderbook.length
    · subst hjr
      rw [if_pos rfl, if_pos (by simp [Trade.involves, matchTrade]), hM.incoming]
      rfl
    · rw [if_neg hjr]
      by_cases hjb : j = best.orderIndex.toNat
      · rw [if_pos hjb, if_pos (by simp [Trade.involves, matchTrade, hjb]), hjb, hM.inBook]
        rfl
      · rw [if_neg hjb, if_neg (by simp [Trade.involves, matchTrade, Ne.symm hjr, Ne.symm hjb]),
          hkeep]

theorem deals_length {e : Exchange} (hL : LogInBook e) :
    (engineOf e).deals.length = e.completedTrades.length := by
  show (e.completedTrades.filterMap (dealOf e.orderbook)).length = _
  rw [List.length_filterMap_eq_countP, List.countP_eq_length]
  intro y hy
  obtain ⟨h1, h2⟩ := hL y hy
  unfold dealOf keyAt
  rw [List.getElem?_eq_getElem h1, List.getElem?_eq_getElem h2]
  rfl

/-- The engine makes as many deals as the reference matcher makes trades. -/
theorem enter_deals_length (fee : Int → Int) {e : Exchange} (hB : BookInOrder e.orderbook)
    (hL : LogInBook e) (ho : o.completed = false) :
    ((engineOf e).enter (quote o)).deals.length = e.completedTrades.length +
      (arrivalTrades fee e.orderbook.length e.orderbook o).length := by
  let ts := arrivalTrades fee e.orderbook.length e.orderbook o
  let e' : Exchange := { e with
    orderbook := (e.orderbook ++ [{ o with orderIndex := e.orderbook.length }]).mapIdx fun k =>
      Order.fill (tradedQuantity k ts)
    completedTrades := e.completedTrades ++ ts }
  have hA : Arrived fee e.orderbook o e'.orderbook := fun k => List.getElem?_mapIdx
  have hlen : e'.orderbook.length = e.orderbook.length + 1 := by
    show (List.mapIdx _ (e.orderbook ++ _)).length = _
    rw [List.length_mapIdx, List.length_append]
    rfl
  have hL' : LogInBook e' := by
    intro y hy
    rw [hlen]
    rcases List.mem_append.mp hy with hy | hy
    · obtain ⟨h1, h2⟩ := hL y hy
      exact ⟨by omega, by omega⟩
    · obtain ⟨hin, b, hb, _⟩ := mem_arrivalTrades hB.index hy
      have := (List.getElem?_eq_some_iff.mp hb).1
      exact ⟨by omega, by omega⟩
  rw [← engine_arrived hB hL ho hA rfl, deals_length hL']
  exact List.length_append

/-- An AMEND that does not fit makes one trade where the reference matcher makes two at least. -/
theorem amended_short (fee : Int → Int) (hok : MainOk m) (hN : Numbered m.exchange)
    (hU : Uncrossed m.exchange.orderbook) (h : entryOf m i = .amended t k o)
    (hold : AmendEntry m.exchange t k o old) (hfits : ¬ AmendFits m i) :
    (mainNext fee m i).exchange.completedTrades.length = m.exchange.completedTrades.length + 1 ∧
      2 ≤ (arrivalTrades fee m.exchange.orderbook.length m.exchange.orderbook o).length := by
  rw [amendFits_eq h] at hfits
  push Not at hfits
  obtain ⟨b, c, bs, hq, hlt⟩ := hfits
  have hpos := hold.positive
  constructor
  · rcases next_amended_cases fee hok hN hU h hold with ⟨hq', _⟩ | ⟨best, bs', _, _, he⟩
    · rw [hq] at hq'
      cases hq'
    · rw [he]
      exact List.length_append
  · unfold arrivalTrades
    rw [hq, referenceTrades, if_neg (by omega), referenceTrades, if_neg (by omega)]
    exact Nat.le_add_left 2 _

/-- **The engine and an AMEND**: they agree exactly if it fits. -/
theorem engine_amended_iff (fee : Int → Int) (hok : MainOk m) (hN : Numbered m.exchange)
    (hU : Uncrossed m.exchange.orderbook) (h : entryOf m i = .amended t k o) :
    engineOf (mainNext fee m i).exchange =
      ((engineOf m.exchange).withdraw (quote o).key).enter (quote o) ↔ AmendFits m i := by
  obtain ⟨old, hold⟩ := entryOf_amended hok.sound.toBookOk h
  have hB := bookInOrder_close (bookInOrder_of_bookOk hok.sound.toBookOk) k
  have hL : LogInBook (m.exchange.onOrder k closeOrder) := by
    intro y hy
    show _ < (m.exchange.orderbook.modify k closeOrder).length ∧ _
    rw [show (m.exchange.onOrder k closeOrder).orderbook.length = m.exchange.orderbook.length from
      List.length_modify _ _ _, List.length_modify]
    exact logInBook_of_sound hok.sound y hy
  have hkey : (quote o).key = (old.trader, old.orderId) := by
    show (o.trader, o.orderId) = _
    rw [hold.owner, hold.oldOwner, hold.sameId]
  rw [hkey, ← engine_close hok.sound hN hold.place hold.oldOpen]
  constructor
  · intro he
    by_contra hfits
    obtain ⟨hone, htwo⟩ := amended_short fee hok hN hU h hold hfits
    have hdeals := congrArg (fun E => E.deals.length) he
    simp only [enter_deals_length fee hB hL hold.isOpen] at hdeals
    have hle : (engineOf (mainNext fee m i).exchange).deals.length ≤
        (mainNext fee m i).exchange.completedTrades.length := List.length_filterMap_le _ _
    have hts := arrivalTrades_close fee hold m.exchange.orderbook.length
    have hlen : (m.exchange.onOrder k closeOrder).orderbook.length =
        m.exchange.orderbook.length := List.length_modify _ _ _
    rw [hlen, show (m.exchange.onOrder k closeOrder).orderbook =
      m.exchange.orderbook.modify k closeOrder from rfl, hts] at hdeals
    have hlog : (m.exchange.onOrder k closeOrder).completedTrades.length =
        m.exchange.completedTrades.length := rfl
    omega
  · intro hfits
    obtain ⟨hA, hlog⟩ := amended_arrived fee hok hN hU h hold hfits
    exact engine_arrived hB hL hold.isOpen hA hlog

end Amending

/-! ## 4. Runs -/

/-- **One step of the exchange is one of the engine**, exactly if its AMEND, if it is one, fits. -/
theorem engine_next_iff (fee : Int → Int) {m : Main} {i : Input} (hok : MainOk m)
    (hN : Numbered m.exchange) (hU : Uncrossed m.exchange.orderbook) :
    engineOf (mainNext fee m i).exchange = (engineOf m.exchange).answer (askOf m i) ↔
      AmendFits m i := by
  cases h : entryOf m i with
  | amended t k o =>
      unfold askOf
      rw [h]
      exact engine_amended_iff fee hok hN hU h
  | new t o =>
      refine ⟨fun _ => ?_, fun _ => ?_⟩
      · unfold AmendFits
        rw [h]
        trivial
      · unfold askOf
        rw [h]
        exact engine_new fee hok.sound hN h
  | none =>
      refine ⟨fun _ => ?_, fun _ => engine_none fee hok.sound hN h⟩
      unfold AmendFits
      rw [h]
      trivial

/-- The exchange, and the engine that is asked for what the exchange accepts. -/
def beside (fee : Int → Int) (p : Main × Engine) (i : Input) : Main × Engine :=
  (mainNext fee p.1 i, p.2.answer (askOf p.1 i))

/-- The exchange shows the engine beside it. -/
def ShowsEngine (p : Main × Engine) : Prop := engineOf p.1.exchange = p.2

theorem beside_iff (fee : Int → Int) : ∀ (is : List Input) {m : Main}, MainOk m →
    Numbered m.exchange → Uncrossed m.exchange.orderbook → AllSteps (mainNext fee) EntersNext m is →
      (Always (beside fee) ShowsEngine (m, engineOf m.exchange) is ↔
        AllSteps (mainNext fee) AmendFits m is) := by
  intro is
  induction is with
  | nil => exact fun _ _ _ _ => ⟨fun _ => trivial, fun _ => rfl⟩
  | cons i is ih =>
      intro m hok hN hU hnext
      have hstep := engine_next_iff fee (i := i) hok hN hU
      have hrest : AmendFits m i →
          (Always (beside fee) ShowsEngine (beside fee (m, engineOf m.exchange) i) is ↔
            AllSteps (mainNext fee) AmendFits (mainNext fee m i) is) := by
        intro hfits
        have hnow : beside fee (m, engineOf m.exchange) i =
            (mainNext fee m i, engineOf (mainNext fee m i).exchange) :=
          Prod.ext rfl (hstep.mpr hfits).symm
        rw [hnow]
        exact ih (mainOk_next fee hok i) (numbered_next fee hok.sound hN hnext.1)
          ((uncrossed_next fee hok hN hU).mpr hfits) hnext.2
      constructor
      · intro h
        have hnow : ShowsEngine (beside fee (m, engineOf m.exchange) i) := always_first is h.2
        have hfits := hstep.mp hnow
        exact ⟨hfits, (hrest hfits).mp h.2⟩
      · intro h
        exact ⟨rfl, (hrest h.1).mpr h.2⟩

/-- **The exchange is a price-time engine**: in a run that numbers its orders, the lines of its open
    orders and the trades of its log are those of the engine beside it in every state, exactly if
    its AMENDs all fit. -/
theorem exchange_is_engine (fee : Int → Int) (products : List Word) (pids : List Nat)
    (argv : List Word) (is : List Input)
    (h : AllSteps (mainNext fee) EntersNext (mainInit products pids argv) is) :
    Always (beside fee) ShowsEngine (mainInit products pids argv, Engine.empty) is ↔
      AllSteps (mainNext fee) AmendFits (mainInit products pids argv) is :=
  beside_iff fee is (mainOk_init products pids argv) (numbered_init products pids argv)
    (fun j k a b ha => by cases ha) h

/-- Two orders to sell wait; a buyer takes the cheaper one and half of the other, bids lower and
    raises the bid; the seller cancels the rest. -/
theorem exchange_is_engine_session :
    let is := [Input.command 10 "SELL 0 GPU 10 100;".toList, .command 10 "SELL 1 GPU 10 90;".toList,
      .command 11 "BUY 0 GPU 15 100;".toList, .command 11 "BUY 1 GPU 5 50;".toList,
      .command 11 "AMEND 1 5 60;".toList, .command 10 "CANCEL 0;".toList]
    AllSteps (mainNext (· / 100)) EntersNext
      (mainInit ["GPU".toList] [10, 11] (List.replicate 6 [])) is ∧
    Always (beside (· / 100)) ShowsEngine
      (mainInit ["GPU".toList] [10, 11] (List.replicate 6 []), Engine.empty) is := by
  intro is
  have h : AllSteps (mainNext (· / 100)) EntersNext
      (mainInit ["GPU".toList] [10, 11] (List.replicate 6 [])) is := by decide +kernel
  exact ⟨h, (exchange_is_engine _ _ _ _ is h).mpr (by decide +kernel)⟩

end SysProg.Pe
