/-
  File:      SysProg/Pe/Step.lean
  Subject:   What one step of the event loop does to the exchange.

  A command enters at most one order into the book (`entryOf`): a new one, or
  one that replaces an open order of the sender. The matches follow. Every
  other step closes one order, marks traders, or changes nothing.

  * `message_cases` -- the four things the switch does with a message;
  * `entryOf_eq_new`, `entryOf_eq_amended` -- the message behind an order;
  * `entryOf_new`, `entryOf_amended` -- what is known of the order entered;
  * `Evolves`, `Grows` -- the book only grows: an order keeps everything but
    its quantity and its flag, and a closed order keeps these too.
-/
import SysProg.Pe.Place

namespace SysProg.Pe

open Lib

/-! ## 1. What a command enters -/

/-- The order a step hands to `marketAddOrder`: none, a new one of a trader, or one that
    replaces the order at position `i`. -/
inductive Entry where
  | none : Entry
  | new (trader : Nat) (order : Order) : Entry
  | amended (trader i : Nat) (order : Order) : Entry
  deriving DecidableEq, Repr

/-- What the message of a trader enters. -/
def messageEntry (m : Main) (sender : Nat) (t : Trader) (text : List Char) : Entry :=
  match readMessage (messageOf t text) m.marketArgv m.exchange.products with
  | (.ORDER_RECEIVED, argv) =>
      match newOrder argv sender t (orderTypeOf (argAt argv 0)) with
      | none => .none
      | some order => .new sender order
  | (.AMEND_REQUEST, argv) =>
      match amendSearch argv m.exchange sender t with
      | none => .none
      | some (i, order) => .amended sender i order
  | _ => .none

def entryOf (m : Main) : Input → Entry
  | .poll _ _ => .none
  | .command pid text =>
      if m.exchangeDisconnect then .none
      else
        match findTrader m.exchange.traders pid with
        | none => .none
        | some sender =>
          match m.exchange.traders[sender]? with
          | none => .none
          | some t => messageEntry m sender t text

/-- A command is ignored, or it is the message of a trader of the table. -/
theorem command_cases (fee : Int → Int) (m : Main) (pid : Nat) (text : List Char) :
    (mainStep fee m (.command pid text) = (m, []) ∧ entryOf m (.command pid text) = .none) ∨
    ∃ sender t, m.exchangeDisconnect = false ∧ findTrader m.exchange.traders pid = some sender ∧
      m.exchange.traders[sender]? = some t ∧
      mainStep fee m (.command pid text) = handleMessage fee m sender pid t text ∧
      entryOf m (.command pid text) = messageEntry m sender t text := by
  by_cases hd : m.exchangeDisconnect = true
  · exact Or.inl ⟨by simp only [mainStep, hd, if_true], by simp only [entryOf, hd, if_true]⟩
  · have hd' : m.exchangeDisconnect = false := Bool.eq_false_iff.mpr hd
    cases hf : findTrader m.exchange.traders pid with
    | none => exact Or.inl ⟨by simp [mainStep, hd', hf], by simp [entryOf, hd', hf]⟩
    | some sender =>
        cases ht : m.exchange.traders[sender]? with
        | none => exact Or.inl ⟨by simp [mainStep, hd', hf, ht], by simp [entryOf, hd', hf, ht]⟩
        | some t =>
            exact Or.inr ⟨sender, t, hd', rfl, ht, by simp [mainStep, hd', hf, ht],
              by simp [entryOf, hd', hf, ht]⟩

/-- An order as `newOrder` builds it, for a trader of the exchange and a listed product. -/
structure Fresh (e : Exchange) (t : Nat) (o : Order) : Prop where
  owner : o.trader = t
  listed : t < e.traders.length
  item : o.item ∈ e.products
  positive : 1 ≤ o.quantity
  isOpen : o.completed = false

/-- What is known of a new order. -/
structure NewEntry (e : Exchange) (t : Nat) (o : Order) : Prop extends Fresh e t o where
  bounded : ∃ tr, e.traders[t]? = some tr ∧ o.orderId ≤ tr.orderCount
  isInt : o.orderId < 2 ^ 31

/-- What is known of an order that replaces the one at position `i`: `old` is the trader's first
    order with its id, and open. -/
structure AmendEntry (e : Exchange) (t i : Nat) (o old : Order) : Prop extends Fresh e t o where
  place : e.orderbook[i]? = some old
  oldOwner : old.trader = t
  oldOpen : old.completed = false
  sameId : o.orderId = old.orderId
  sameType : o.orderType = old.orderType
  sameItem : o.item = old.item
  first : ∀ (j : Nat) (x : Order), j < i → e.orderbook[j]? = some x → x.trader = t →
    x.orderId ≠ o.orderId

theorem messageEntry_eq_new {m : Main} {sender t : Nat} {tr : Trader} {text : List Char}
    {o : Order} : messageEntry m sender tr text = .new t o ↔
      t = sender ∧ ∃ argv, readMessage (messageOf tr text) m.marketArgv m.exchange.products =
        (.ORDER_RECEIVED, argv) ∧ newOrder argv sender tr (orderTypeOf (argAt argv 0)) = some o := by
  unfold messageEntry
  refine ⟨fun h => ?_, ?_⟩
  · split at h
    · rename_i argv hmsg
      split at h
      · cases h
      · rename_i order hnew
        cases h
        exact ⟨rfl, argv, hmsg, hnew⟩
    · split at h <;> cases h
    · cases h
  · intro h
    obtain ⟨rfl, argv, hmsg, hnew⟩ := h
    simp only [hmsg, hnew]

theorem messageEntry_eq_amended {m : Main} {sender t k : Nat} {tr : Trader} {text : List Char}
    {o : Order} : messageEntry m sender tr text = .amended t k o ↔
      t = sender ∧ ∃ argv, readMessage (messageOf tr text) m.marketArgv m.exchange.products =
        (.AMEND_REQUEST, argv) ∧ amendSearch argv m.exchange sender tr = some (k, o) := by
  unfold messageEntry
  refine ⟨fun h => ?_, ?_⟩
  · split at h
    · split at h <;> cases h
    · rename_i argv hmsg
      split at h
      · cases h
      · rename_i k' order hs
        cases h
        exact ⟨rfl, argv, hmsg, hs⟩
    · cases h
  · intro h
    obtain ⟨rfl, argv, hmsg, hs⟩ := h
    simp only [hmsg, hs]

section Switch

variable {fee : Int → Int} {m : Main} {sender pid : Nat} {tr : Trader} {text : List Char}
  {argv : List Word}

theorem handleMessage_order (h : readMessage (messageOf tr text) m.marketArgv m.exchange.products =
      (.ORDER_RECEIVED, argv)) :
    handleMessage fee m sender pid tr text = orderReceived fee m argv sender pid tr := by
  simp only [handleMessage, h]

theorem handleMessage_amend (h : readMessage (messageOf tr text) m.marketArgv m.exchange.products =
      (.AMEND_REQUEST, argv)) :
    handleMessage fee m sender pid tr text = amendRequest fee m argv sender pid tr := by
  simp only [handleMessage, h]

theorem handleMessage_cancel (h : readMessage (messageOf tr text) m.marketArgv m.exchange.products =
      (.CANCEL_REQUEST, argv)) :
    handleMessage fee m sender pid tr text = cancelRequest m argv sender pid tr := by
  simp only [handleMessage, h]

/-- The CANCEL branch answers INVALID, or it closes the open order `getOrder` finds. -/
theorem cancelRequest_cases (m : Main) (argv : List Word) (sender pid : Nat) (tr : Trader) :
    cancelRequest m argv sender pid tr =
      ({ m with marketArgv := argv }, notify sender pid invalidText) ∨
    ∃ r o, m.exchange.orderbook[r]? = some o ∧ o.completed = false ∧
      cancelRequest m argv sender pid tr =
        ({ m with exchange := m.exchange.onOrder r closeOrder, marketArgv := argv },
          notify sender pid (cancelledText (atoi (argAt argv 1))) ++
          broadcast m.exchange.traders sender (marketText (typeText o.orderType) o.item 0 0)) := by
  unfold cancelRequest
  split
  · exact Or.inl rfl
  · simp only
    cases getOrder m.exchange.orderbook tr (atoi (argAt argv 1)) with
    | none => exact Or.inl rfl
    | some r =>
        simp only
        cases ho : m.exchange.orderbook[r]? with
        | none => exact Or.inl rfl
        | some o =>
            simp only
            split
            · exact Or.inl rfl
            · rename_i hc
              exact Or.inr ⟨r, o, ho, Bool.eq_false_iff.mpr hc, rfl⟩

/-- **What the switch does with a message**: it is answered with INVALID and changes nothing but
    main's variables, it enters a new order, it enters an amended order, or it closes one. -/
theorem message_cases (fee : Int → Int) (m : Main) (sender pid : Nat) (tr : Trader)
    (text : List Char) :
    (∃ argv order, (readMessage (messageOf tr text) m.marketArgv m.exchange.products).2 = argv ∧
      (order = m.order ∨ order = none) ∧ messageEntry m sender tr text = .none ∧
      handleMessage fee m sender pid tr text =
        ({ m with marketArgv := argv, order := order }, notify sender pid invalidText)) ∨
    (∃ argv o, readMessage (messageOf tr text) m.marketArgv m.exchange.products =
        (.ORDER_RECEIVED, argv) ∧
      newOrder argv sender tr (orderTypeOf (argAt argv 0)) = some o ∧
      messageEntry m sender tr text = .new sender o ∧
      handleMessage fee m sender pid tr text = orderReceived fee m argv sender pid tr) ∨
    (∃ argv k o, readMessage (messageOf tr text) m.marketArgv m.exchange.products =
        (.AMEND_REQUEST, argv) ∧
      amendSearch argv m.exchange sender tr = some (k, o) ∧
      messageEntry m sender tr text = .amended sender k o ∧
      handleMessage fee m sender pid tr text = amendRequest fee m argv sender pid tr) ∨
    ∃ argv orderId r o,
      (readMessage (messageOf tr text) m.marketArgv m.exchange.products).2 = argv ∧
      m.exchange.orderbook[r]? = some o ∧ o.completed = false ∧
      messageEntry m sender tr text = .none ∧
      handleMessage fee m sender pid tr text =
        ({ m with exchange := m.exchange.onOrder r closeOrder, marketArgv := argv },
          notify sender pid (cancelledText orderId) ++
          broadcast m.exchange.traders sender (marketText (typeText o.orderType) o.item 0 0)) := by
  obtain ⟨⟨st, argv⟩, hmsg⟩ :
    ∃ p, readMessage (messageOf tr text) m.marketArgv m.exchange.products = p := ⟨_, rfl⟩
  have hargv : (readMessage (messageOf tr text) m.marketArgv m.exchange.products).2 = argv := by
    rw [hmsg]
  cases st with
  | ORDER_RECEIVED =>
      cases hnew : newOrder argv sender tr (orderTypeOf (argAt argv 0)) with
      | none =>
          refine Or.inl ⟨argv, none, hargv, Or.inr rfl, ?_, ?_⟩
          · simp only [messageEntry, hmsg, hnew]
          · simp only [handleMessage_order hmsg, orderReceived, hnew]
      | some o =>
          exact Or.inr (Or.inl ⟨argv, o, hmsg, hnew, messageEntry_eq_new.mpr ⟨rfl, argv, hmsg, hnew⟩,
            handleMessage_order hmsg⟩)
  | AMEND_REQUEST =>
      cases hs : amendSearch argv m.exchange sender tr with
      | none =>
          refine Or.inl ⟨argv, m.order, hargv, Or.inl rfl, ?_, ?_⟩
          · simp only [messageEntry, hmsg, hs]
          · simp only [handleMessage_amend hmsg, amendRequest, amend, hs, Option.map_none]
      | some found =>
          obtain ⟨k, o⟩ := found
          exact Or.inr (Or.inr (Or.inl ⟨argv, k, o, hmsg, hs,
            messageEntry_eq_amended.mpr ⟨rfl, argv, hmsg, hs⟩, handleMessage_amend hmsg⟩))
  | CANCEL_REQUEST =>
      have hnone : messageEntry m sender tr text = .none := by simp only [messageEntry, hmsg]
      have hstep : handleMessage fee m sender pid tr text = cancelRequest m argv sender pid tr :=
        handleMessage_cancel hmsg
      rcases cancelRequest_cases m argv sender pid tr with h | ⟨r, o, hr, ho, h⟩
      · exact Or.inl ⟨argv, m.order, hargv, Or.inl rfl, hnone, hstep.trans h⟩
      · exact Or.inr (Or.inr (Or.inr ⟨argv, _, r, o, hargv, hr, ho, hnone, hstep.trans h⟩))
  | INVALID_MESSAGE =>
      refine Or.inl ⟨argv, m.order, hargv, Or.inl rfl, ?_, ?_⟩
      · simp only [messageEntry, hmsg]
      · simp only [handleMessage, hmsg]

end Switch

/-- The message behind a new order. -/
theorem entryOf_eq_new (fee : Int → Int) {m : Main} {i : Input} {t : Nat} {o : Order}
    (h : entryOf m i = .new t o) :
    ∃ pid text tr argv, i = .command pid text ∧ m.exchangeDisconnect = false ∧
      findTrader m.exchange.traders pid = some t ∧ m.exchange.traders[t]? = some tr ∧
      readMessage (messageOf tr text) m.marketArgv m.exchange.products = (.ORDER_RECEIVED, argv) ∧
      newOrder argv t tr (orderTypeOf (argAt argv 0)) = some o ∧
      mainStep fee m i = handleMessage fee m t pid tr text := by
  cases i with
  | poll pid exited => cases h
  | command pid text =>
      rcases command_cases fee m pid text with ⟨_, he⟩ | ⟨sender, tr, hrun, hf, htr, hstep, he⟩
      · rw [he] at h
        cases h
      · rw [he] at h
        obtain ⟨rfl, argv, hmsg, hnew⟩ := messageEntry_eq_new.mp h
        exact ⟨pid, text, tr, argv, rfl, hrun, hf, htr, hmsg, hnew, hstep⟩

/-- The message behind an amended order. -/
theorem entryOf_eq_amended (fee : Int → Int) {m : Main} {i : Input} {t k : Nat} {o : Order}
    (h : entryOf m i = .amended t k o) :
    ∃ pid text tr argv, i = .command pid text ∧ m.exchange.traders[t]? = some tr ∧
      readMessage (messageOf tr text) m.marketArgv m.exchange.products = (.AMEND_REQUEST, argv) ∧
      amendSearch argv m.exchange t tr = some (k, o) ∧
      mainStep fee m i = handleMessage fee m t pid tr text := by
  cases i with
  | poll pid exited => cases h
  | command pid text =>
      rcases command_cases fee m pid text with ⟨_, he⟩ | ⟨sender, tr, _, _, htr, hstep, he⟩
      · rw [he] at h
        cases h
      · rw [he] at h
        obtain ⟨rfl, argv, hmsg, hs⟩ := messageEntry_eq_amended.mp h
        exact ⟨pid, text, tr, argv, rfl, htr, hmsg, hs, hstep⟩

theorem entryOf_new {m : Main} {i : Input} {t : Nat} {o : Order} (h : entryOf m i = .new t o) :
    NewEntry m.exchange t o := by
  obtain ⟨_, _, tr, argv, -, -, -, htr, hmsg, hnew, -⟩ := entryOf_eq_new id h
  obtain ⟨s, -, -, -, -, hid, hq, -, -, -, rfl⟩ := newOrder_eq_some.mp hnew
  exact ⟨⟨rfl, (List.getElem?_eq_some_iff.mp htr).1, (readMessage_order hmsg).2.1, hq, rfl⟩,
    ⟨tr, htr, hid⟩, atoi_lt _⟩

/-- `newOrder` on the arguments of an AMEND succeeds or fails whatever the order replaced is. -/
theorem newOrder_amend_ext {a a' x x' id q p : Word} {t : Nat} {tr : Trader} {s s' : OrderType}
    {o : Order} (h : newOrder [a, id, x, q, p] t tr (some s) = some o) :
    ∃ o', newOrder [a', id, x', q, p] t tr (some s') = some o' := by
  obtain ⟨_, -, h1, h3, h4, hid, h5, h6, h7, h8, -⟩ := newOrder_eq_some.mp h
  exact ⟨_, newOrder_eq_some.mpr ⟨s', rfl, h1, h3, h4, hid, h5, h6, h7, h8, rfl⟩⟩

theorem amendLoop_spec {argv : List Word} {t : Nat} {tr : Trader} :
    ∀ {l : List Order} {k i : Nat} {o : Order}, amendLoop argv t tr l k = some (i, o) →
      ∃ d old, i = k + d ∧ l[d]? = some old ∧ old.orderId = atoi (argAt argv 1) ∧ old.trader = t ∧
        old.completed = false ∧
        newOrder [typeText old.orderType, argAt argv 1, old.item, argAt argv 2, argAt argv 3] t tr
          (some old.orderType) = some o ∧
        ∀ (j : Nat) (x : Order), j < d → l[j]? = some x → x.trader = t →
          x.orderId ≠ atoi (argAt argv 1)
  | [], _, _, _, h => by cases h
  | y :: l, k, i, o, h => by
      -- an order the loop passes by: the rest decides
      have hskip : amendLoop argv t tr l (k + 1) = some (i, o) →
          (∀ o', newOrder [typeText y.orderType, argAt argv 1, y.item, argAt argv 2, argAt argv 3] t
            tr (some y.orderType) = some o' → y.trader = t → y.orderId ≠ atoi (argAt argv 1)) →
          ∃ d old, i = k + d ∧ (y :: l)[d]? = some old ∧ old.orderId = atoi (argAt argv 1) ∧
            old.trader = t ∧ old.completed = false ∧
            newOrder [typeText old.orderType, argAt argv 1, old.item, argAt argv 2, argAt argv 3] t
              tr (some old.orderType) = some o ∧
            ∀ (j : Nat) (x : Order), j < d → (y :: l)[j]? = some x → x.trader = t →
              x.orderId ≠ atoi (argAt argv 1) := by
        intro h' hy
        obtain ⟨d, old, hi, hd, hid, ht, hc, hnew, hfirst⟩ := amendLoop_spec h'
        refine ⟨d + 1, old, by omega, by simpa using hd, hid, ht, hc, hnew, fun j x hj hx hxt => ?_⟩
        cases j with
        | zero =>
            have e : y = x := by simpa using hx
            subst e
            obtain ⟨o', ho'⟩ := newOrder_amend_ext hnew
            exact hy o' ho' hxt
        | succ j => exact hfirst j x (by omega) (by simpa using hx) hxt
      unfold amendLoop at h
      split at h
      · rename_i hkey
        split at h
        · cases h
        · rename_i hc
          split at h
          · rename_i order hnew
            cases h
            exact ⟨0, y, rfl, rfl, hkey.1, hkey.2, Bool.eq_false_iff.mpr hc, hnew,
              fun j x hj => absurd hj (Nat.not_lt_zero j)⟩
          · rename_i hnone
            exact hskip h fun o' ho' => by rw [hnone] at ho'; cases ho'
      · rename_i hkey
        exact hskip h fun o' _ hyt hyid => hkey ⟨hyid, hyt⟩

/-- `amend` builds its order with `newOrder`, for the trader's first order with the id. -/
theorem amendSearch_built {argv : List Word} {e : Exchange} {t : Nat} {tr : Trader} {i : Nat}
    {o : Order} (h : amendSearch argv e t tr = some (i, o)) :
    ∃ old, e.orderbook[i]? = some old ∧ old.orderId = atoi (argAt argv 1) ∧ old.trader = t ∧
      old.completed = false ∧
      newOrder [typeText old.orderType, argAt argv 1, old.item, argAt argv 2, argAt argv 3] t tr
        (some old.orderType) = some o ∧
      ∀ (j : Nat) (x : Order), j < i → e.orderbook[j]? = some x → x.trader = t →
        x.orderId ≠ atoi (argAt argv 1) := by
  unfold amendSearch at h
  split at h
  · cases h
  · simp only at h
    split at h
    · cases h
    · split at h
      · cases h
      · obtain ⟨d, old, hi, hfound⟩ := amendLoop_spec h
        rw [Nat.zero_add] at hi
        subst hi
        exact ⟨old, hfound⟩

theorem amendSearch_spec {argv : List Word} {e : Exchange} {t : Nat} {tr : Trader} {i : Nat}
    {o : Order} (hB : BookOk e) (ht : e.traders[t]? = some tr)
    (h : amendSearch argv e t tr = some (i, o)) :
    o.orderId = atoi (argAt argv 1) ∧ ∃ old, AmendEntry e t i o old := by
  obtain ⟨old, hd, hid, hot, hc, hnew, hfirst⟩ := amendSearch_built h
  obtain ⟨s, hs, -, -, -, -, hq, -, -, -, rfl⟩ := newOrder_eq_some.mp hnew
  cases hs
  refine ⟨rfl, old, ⟨⟨rfl, (List.getElem?_eq_some_iff.mp ht).1, hB.item i old hd, hq, rfl⟩,
    hd, hot, hc, hid.symm, rfl, rfl, hfirst⟩⟩

theorem entryOf_amended {m : Main} {i : Input} {t k : Nat} {o : Order} (hB : BookOk m.exchange)
    (h : entryOf m i = .amended t k o) : ∃ old, AmendEntry m.exchange t k o old := by
  obtain ⟨_, _, tr, argv, -, htr, -, hs, -⟩ := entryOf_eq_amended id h
  exact (amendSearch_spec hB htr hs).2

/-! ## 2. The book only grows -/

/-- What the exchange may do to an order: its quantity and flag, while it is open. -/
structure Evolves (o o' : Order) : Prop where
  orderType : o'.orderType = o.orderType
  item : o'.item = o.item
  unitPrice : o'.unitPrice = o.unitPrice
  trader : o'.trader = o.trader
  orderId : o'.orderId = o.orderId
  orderIndex : o'.orderIndex = o.orderIndex
  frozen : o.completed = true → o' = o

theorem Evolves.refl (o : Order) : Evolves o o := ⟨rfl, rfl, rfl, rfl, rfl, rfl, fun _ => rfl⟩

theorem Evolves.trans {o o' o'' : Order} (h : Evolves o o') (h' : Evolves o' o'') :
    Evolves o o'' :=
  ⟨h'.orderType.trans h.orderType, h'.item.trans h.item, h'.unitPrice.trans h.unitPrice,
    h'.trader.trans h.trader, h'.orderId.trans h.orderId, h'.orderIndex.trans h.orderIndex,
    fun hc => by
      have e := h.frozen hc
      rw [e] at h'
      exact h'.frozen hc⟩

/-- An order that is open after the change was open before it. -/
theorem Evolves.open_of_open {o o' : Order} (h : Evolves o o') (hc : o'.completed = false) :
    o.completed = false := by
  refine Bool.eq_false_iff.mpr fun ho => ?_
  rw [h.frozen ho, ho] at hc
  cases hc

theorem evolves_close {o : Order} (h : o.completed = false) : Evolves o (closeOrder o) :=
  ⟨rfl, rfl, rfl, rfl, rfl, rfl, fun hc => by rw [h] at hc; cases hc⟩

theorem evolves_fill {o : Order} (q : Int) (h : o.completed = false) : Evolves o (o.fill q) :=
  ⟨fill_orderType q o, fill_item q o, fill_unitPrice q o, fill_trader q o, fill_orderId q o,
    fill_orderIndex q o, fun hc => by rw [h] at hc; cases hc⟩

/-- Every order of the book is still at its place, evolved. -/
def Grows (ob ob' : List Order) : Prop :=
  ∀ (k : Nat) (o : Order), ob[k]? = some o → ∃ o', ob'[k]? = some o' ∧ Evolves o o'

theorem Grows.refl (ob : List Order) : Grows ob ob := fun _ o h => ⟨o, h, Evolves.refl o⟩

theorem Grows.trans {ob ob' ob'' : List Order} (h : Grows ob ob') (h' : Grows ob' ob'') :
    Grows ob ob'' := by
  intro k o ho
  obtain ⟨o', ho', he⟩ := h k o ho
  obtain ⟨o'', ho'', he'⟩ := h' k o' ho'
  exact ⟨o'', ho'', he.trans he'⟩

theorem Grows.length_le {ob ob' : List Order} (h : Grows ob ob') : ob.length ≤ ob'.length := by
  by_contra hlt
  obtain ⟨o', ho', _⟩ := h ob'.length _ (List.getElem?_eq_getElem (by omega))
  rw [List.getElem?_eq_none (Nat.le_refl _)] at ho'
  cases ho'

/-- The new order stands at the end of the book. -/
theorem enterOrder_book (e : Exchange) (t : Nat) (o : Order) :
    (enterOrder e t o).orderbook = e.orderbook ++ [{ o with orderIndex := e.orderbook.length }] := rfl

theorem replaceOrder_book (e : Exchange) (t i : Nat) (o : Order) :
    (replaceOrder e t i o).orderbook =
      (e.orderbook ++ [{ o with orderIndex := e.orderbook.length }]).modify i closeOrder := rfl

theorem replaceOrder_book_length {e : Exchange} {t i : Nat} {o : Order} :
    (replaceOrder e t i o).orderbook.length = e.orderbook.length + 1 := by
  rw [replaceOrder_book, List.length_modify, List.length_append]
  rfl

theorem grows_append (ob : List Order) (o : Order) : Grows ob (ob ++ [o]) := by
  intro k x hx
  refine ⟨x, ?_, Evolves.refl x⟩
  rw [List.getElem?_append_left (List.getElem?_eq_some_iff.mp hx).1]
  exact hx

theorem grows_close {ob : List Order} {r : Nat} {o : Order} (hr : ob[r]? = some o)
    (ho : o.completed = false) : Grows ob (ob.modify r closeOrder) := by
  intro k x hx
  by_cases hk : r = k
  · subst hk
    rw [hr] at hx
    cases hx
    exact ⟨closeOrder o, by rw [List.getElem?_modify_eq, hr]; rfl, evolves_close ho⟩
  · exact ⟨x, by rw [List.getElem?_modify_ne _ _ hk]; exact hx, Evolves.refl x⟩

theorem grows_replace {e : Exchange} {t i : Nat} {o old : Order} (h : AmendEntry e t i o old) :
    Grows e.orderbook (replaceOrder e t i o).orderbook := by
  refine (grows_append _ _).trans (grows_close (o := old) ?_ h.oldOpen)
  rw [List.getElem?_append_left (List.getElem?_eq_some_iff.mp h.place).1]
  exact h.place

theorem grows_match (fee : Int → Int) {e : Exchange} {side : OrderType} {r b : Nat} {o best : Order}
    (h : Match e side r b o best) :
    Grows e.orderbook (applyMatch fee e side r b o best).orderbook := by
  intro k x hx
  rw [applyMatch_book h]
  split
  · rename_i hk
    rw [hk, h.incoming] at hx
    cases hx
    exact ⟨_, rfl, evolves_fill _ h.isOpen⟩
  · split
    · rename_i hk
      rw [hk, h.inBook] at hx
      cases hx
      exact ⟨_, rfl, evolves_fill _ h.bookOpen⟩
    · exact ⟨x, hx, Evolves.refl x⟩

end SysProg.Pe
