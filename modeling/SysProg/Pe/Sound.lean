/-
  File:      SysProg/Pe/Sound.lean
  Subject:   THE INVARIANT OF EVERY REACHABLE EXCHANGE, and the rule that
             derives further invariants from it.

  `Sound` adds to `BookOk` what ties the traders' lists and the trade log to
  the book: the entries of a trader point to its own orders, every id in the
  book has an entry, every trade names one order of each side.

  * `next_new`, `next_amended`, `next_none` -- the three kinds of steps;
  * `mainNext_inv` -- the invariant rule over the five changes;
  * `mainOk_next`, `mainOk_run` -- `Sound` in every reachable state.
-/
import SysProg.Pe.Step

namespace SysProg.Pe

open Lib

/-! ## 1. What a match leaves of the traders -/

/-- A trader whose position moved. -/
structure Steady (t t' : Trader) : Prop where
  traderPid : t'.traderPid = t.traderPid
  orders : t'.orders = t.orders
  disconnected : t'.disconnected = t.disconnected
  quantities : t'.inventoryQuantity.length = t.inventoryQuantity.length
  banks : t'.bank.length = t.bank.length

theorem Steady.refl (t : Trader) : Steady t t := ⟨rfl, rfl, rfl, rfl, rfl⟩

theorem Steady.trans {t t' t'' : Trader} (h : Steady t t') (h' : Steady t' t'') : Steady t t'' :=
  ⟨h'.traderPid.trans h.traderPid, h'.orders.trans h.orders, h'.disconnected.trans h.disconnected,
    h'.quantities.trans h.quantities, h'.banks.trans h.banks⟩

theorem steady_shift (i : Nat) (dq dv : Int) (t : Trader) : Steady t (shift i dq dv t) :=
  ⟨rfl, rfl, rfl, List.length_modify _ _ _, List.length_modify _ _ _⟩

theorem steady_tax (products : List Word) (tx : Int) (x : Word) (t : Trader) :
    Steady t (tax products t tx x) :=
  ⟨rfl, rfl, rfl, rfl, List.length_mapIdx⟩

theorem getElem?_modify_of {α : Type*} {l : List α} {i k : Nat} {f : α → α} {y : α}
    (h : (l.modify i f)[k]? = some y) :
    ∃ x, l[k]? = some x ∧ (i ≠ k ∧ y = x ∨ i = k ∧ y = f x) := by
  by_cases hk : i = k
  · subst hk
    rw [List.getElem?_modify_eq] at h
    obtain ⟨x, hx, rfl⟩ := Option.map_eq_some_iff.mp h
    exact ⟨x, hx, Or.inr ⟨rfl, rfl⟩⟩
  · rw [List.getElem?_modify_ne _ _ hk] at h
    exact ⟨y, h, Or.inl ⟨hk, rfl⟩⟩

theorem steady_modify {ts : List Trader} {i k : Nat} {f : Trader → Trader} {t' : Trader}
    (hf : ∀ t, Steady t (f t)) (h : (ts.modify i f)[k]? = some t') :
    ∃ t, ts[k]? = some t ∧ Steady t t' := by
  obtain ⟨t, ht, ⟨_, he⟩ | ⟨_, he⟩⟩ := getElem?_modify_of h
  · exact ⟨t, ht, he ▸ Steady.refl t⟩
  · exact ⟨t, ht, he ▸ hf t⟩

/-- A match moves positions only. -/
theorem steady_settle {products : List Word} {side : OrderType} {o best : Order} {q p tx : Int}
    {ts : List Trader} {k : Nat} {t' : Trader}
    (h : (settle products side o best q p tx ts)[k]? = some t') :
    ∃ t, ts[k]? = some t ∧ Steady t t' := by
  obtain ⟨t₂, h₂, s₂⟩ := steady_modify (steady_tax products tx _) h
  obtain ⟨t₁, h₁, s₁⟩ := steady_modify (steady_shift _ _ _) h₂
  obtain ⟨t, h₀, s₀⟩ := steady_modify (steady_shift _ _ _) h₁
  exact ⟨t, h₀, (s₀.trans s₁).trans s₂⟩

/-! ## 2. The invariant -/

structure Sound (e : Exchange) : Prop extends BookOk e where
  nonneg : ∀ (k : Nat) (o : Order), e.orderbook[k]? = some o → 0 ≤ o.quantity
  entries : ∀ (t : Nat) (tr : Trader) (r : Nat), e.traders[t]? = some tr → r ∈ tr.orders →
    ∃ o, e.orderbook[r]? = some o ∧ o.trader = t
  listed : ∀ (k : Nat) (o : Order) (tr : Trader), e.orderbook[k]? = some o →
    e.traders[o.trader]? = some tr → ∃ r ∈ tr.orders, idAt e.orderbook r = some o.orderId
  width : ∀ (t : Nat) (tr : Trader), e.traders[t]? = some tr →
    tr.inventoryQuantity.length = e.products.length ∧ tr.bank.length = e.products.length
  trades : ∀ x ∈ e.completedTrades, ∃ o b, e.orderbook[x.incomingOrder]? = some o ∧
    e.orderbook[x.orderInBook]? = some b ∧ b.orderType = o.orderType.other

theorem idAt_grows {ob ob' : List Order} (h : Grows ob ob') {r : Nat} {d : Int}
    (hr : idAt ob r = some d) : idAt ob' r = some d := by
  unfold idAt at hr ⊢
  obtain ⟨o, ho, rfl⟩ := Option.map_eq_some_iff.mp hr
  obtain ⟨o', ho', he⟩ := h r o ho
  rw [ho', Option.map_some, he.orderId]

theorem Grows.back {ob ob' : List Order} (h : Grows ob ob') (hlen : ob'.length = ob.length)
    {k : Nat} {o' : Order} (ho' : ob'[k]? = some o') : ∃ o, ob[k]? = some o ∧ Evolves o o' := by
  have hk : k < ob.length := by rw [← hlen]; exact (List.getElem?_eq_some_iff.mp ho').1
  obtain ⟨x, hx, he⟩ := h k ob[k] (List.getElem?_eq_getElem hk)
  rw [ho'] at hx
  cases hx
  exact ⟨ob[k], List.getElem?_eq_getElem hk, he⟩

theorem trades_grow {ob ob' : List Order} {ts : List Trade} (hg : Grows ob ob')
    (h : ∀ x ∈ ts, ∃ o b, ob[x.incomingOrder]? = some o ∧ ob[x.orderInBook]? = some b ∧
      b.orderType = o.orderType.other) :
    ∀ x ∈ ts, ∃ o b, ob'[x.incomingOrder]? = some o ∧ ob'[x.orderInBook]? = some b ∧
      b.orderType = o.orderType.other := by
  intro x hx
  obtain ⟨o, b, ho, hb, hs⟩ := h x hx
  obtain ⟨o', ho', hoe⟩ := hg _ o ho
  obtain ⟨b', hb', hbe⟩ := hg _ b hb
  exact ⟨o', b', ho', hb', by rw [hbe.orderType, hoe.orderType, hs]⟩

/-- Where the book has the same orders and the traders the same lists, the traders' side of the
    invariant carries over. -/
theorem sound_of_steady {e e' : Exchange} (hS : Sound e) (hB : BookOk e')
    (hg : Grows e.orderbook e'.orderbook) (hlen : e'.orderbook.length = e.orderbook.length)
    (hp : e'.products = e.products)
    (ht : ∀ (k : Nat) (t' : Trader), e'.traders[k]? = some t' →
      ∃ t, e.traders[k]? = some t ∧ t'.orders = t.orders ∧
        t'.inventoryQuantity.length = t.inventoryQuantity.length ∧ t'.bank.length = t.bank.length)
    (hq : ∀ (k : Nat) (o : Order), e'.orderbook[k]? = some o → 0 ≤ o.quantity)
    (htr : ∀ x ∈ e'.completedTrades, ∃ o b, e'.orderbook[x.incomingOrder]? = some o ∧
      e'.orderbook[x.orderInBook]? = some b ∧ b.orderType = o.orderType.other) : Sound e' where
  toBookOk := hB
  nonneg := hq
  entries t tr r h hr := by
    obtain ⟨t₀, h₀, ho, _, _⟩ := ht t tr h
    rw [ho] at hr
    obtain ⟨o, hor, hot⟩ := hS.entries t t₀ r h₀ hr
    obtain ⟨o', ho', he⟩ := hg r o hor
    exact ⟨o', ho', by rw [he.trader, hot]⟩
  listed k o tr hk h := by
    obtain ⟨o₀, hk₀, he⟩ := hg.back hlen hk
    obtain ⟨t₀, h₀, ho, _, _⟩ := ht o.trader tr h
    rw [he.trader] at h₀
    obtain ⟨r, hr, hid⟩ := hS.listed k o₀ t₀ hk₀ h₀
    exact ⟨r, by rw [ho]; exact hr, by rw [he.orderId]; exact idAt_grows hg hid⟩
  width t tr h := by
    obtain ⟨t₀, h₀, _, hi, hb⟩ := ht t tr h
    obtain ⟨h1, h2⟩ := hS.width t t₀ h₀
    exact ⟨by rw [hi, h1, hp], by rw [hb, h2, hp]⟩
  trades := htr

section Changes

variable {fee : Int → Int} {e : Exchange}

theorem sound_match {side : OrderType} {r b : Nat} {o best : Order} (hS : Sound e)
    (h : Match e side r b o best) : Sound (applyMatch fee e side r b o best) := by
  have hg : Grows e.orderbook (applyMatch fee e side r b o best).orderbook := grows_match _ h
  refine sound_of_steady hS (bookOk_applyMatch fee hS.toBookOk h) hg applyMatch_book_length rfl
    (fun k t' ht => ?_) (fun k x hx => ?_) (fun x hx => ?_)
  · obtain ⟨t, ht₀, hs⟩ := steady_settle ht
    exact ⟨t, ht₀, hs.orders, hs.quantities, hs.banks⟩
  · have ho := hS.nonneg r o h.incoming
    have hb := hS.nonneg b best h.inBook
    rw [applyMatch_book h] at hx
    split at hx
    · cases hx
      rw [fill_quantity]
      unfold matchAmount
      omega
    · split at hx
      · cases hx
        rw [fill_quantity]
        unfold matchAmount
        omega
      · exact hS.nonneg k x hx
  · rcases List.mem_append.mp hx with hx | hx
    · exact trades_grow hg hS.trades x hx
    · rw [List.mem_singleton.mp hx]
      obtain ⟨o', ho', he⟩ := hg r o h.incoming
      obtain ⟨b', hb', he'⟩ := hg b best h.inBook
      exact ⟨o', b', ho', hb', by rw [he.orderType, he'.orderType, h.ownSide, h.bookSide]⟩

theorem bookOk_close {r : Nat} {o : Order} (hB : BookOk e) (_hr : e.orderbook[r]? = some o) :
    BookOk (e.onOrder r closeOrder) := by
  have hback : ∀ (k : Nat) (x : Order), (e.onOrder r closeOrder).orderbook[k]? = some x →
      ∃ y, e.orderbook[k]? = some y ∧ (x = y ∨ x = closeOrder y) := by
    intro k x hx
    obtain ⟨y, hy, ⟨_, he⟩ | ⟨_, he⟩⟩ := getElem?_modify_of hx
    · exact ⟨y, hy, Or.inl he⟩
    · exact ⟨y, hy, Or.inr he⟩
  refine ⟨fun k x hx => ?_, fun k x hx => ?_, fun k x hx => ?_, fun k x hx hc => ?_⟩
  · obtain ⟨y, hy, he⟩ := hback k x hx
    have h := hB.index k y hy
    rcases he with rfl | rfl <;> exact h
  · obtain ⟨y, hy, he⟩ := hback k x hx
    have h := hB.owner k y hy
    rcases he with rfl | rfl <;> exact h
  · obtain ⟨y, hy, he⟩ := hback k x hx
    have h := hB.item k y hy
    rcases he with rfl | rfl <;> exact h
  · obtain ⟨y, hy, rfl | rfl⟩ := hback k x hx
    · exact hB.positive k x hy hc
    · cases hc

theorem sound_close {r : Nat} {o : Order} (hS : Sound e) (hr : e.orderbook[r]? = some o)
    (ho : o.completed = false) : Sound (e.onOrder r closeOrder) := by
  have hg : Grows e.orderbook (e.onOrder r closeOrder).orderbook := grows_close hr ho
  refine sound_of_steady hS (bookOk_close hS.toBookOk hr) hg (List.length_modify _ _ _) rfl
    (fun k t' ht => ⟨t', ht, rfl, rfl, rfl⟩) (fun k x hx => ?_) (trades_grow hg hS.trades)
  obtain ⟨y, hy, he⟩ := getElem?_modify_of hx
  have h := hS.nonneg k y hy
  rcases he with ⟨_, rfl⟩ | ⟨_, rfl⟩ <;> exact h

/-- The traders of the process `pid` marked disconnected. -/
def markTraders (e : Exchange) (pid : Int) : Exchange :=
  { e with traders := e.traders.map fun t =>
      if (t.traderPid : Int) = pid then { t with disconnected := true } else t }

theorem markTraders_getElem? {pid : Int} {k : Nat} {t' : Trader}
    (h : (markTraders e pid).traders[k]? = some t') :
    ∃ t, e.traders[k]? = some t ∧ t'.orders = t.orders ∧ t'.traderPid = t.traderPid ∧
      t'.inventoryQuantity = t.inventoryQuantity ∧ t'.bank = t.bank := by
  simp only [markTraders, List.getElem?_map] at h
  obtain ⟨t, ht, rfl⟩ := Option.map_eq_some_iff.mp h
  refine ⟨t, ht, ?_⟩
  split <;> exact ⟨rfl, rfl, rfl, rfl⟩

/-- What does not read the flag is as before. -/
theorem markTraders_map {β : Type*} {f : Trader → β}
    (hf : ∀ t, f { t with disconnected := true } = f t) (e : Exchange) (pid : Int) :
    (markTraders e pid).traders.map f = e.traders.map f := by
  rw [markTraders, List.map_map]
  refine List.map_congr_left fun t _ => ?_
  rw [Function.comp_apply]
  split
  · exact hf t
  · rfl

theorem sound_mark (hS : Sound e) (pid : Int) : Sound (markTraders e pid) := by
  have hB : BookOk (markTraders e pid) :=
    ⟨hS.index, fun k o ho => by
      simp only [markTraders, List.length_map]
      exact hS.owner k o ho, hS.item, hS.positive⟩
  refine sound_of_steady hS hB (Grows.refl _) rfl rfl (fun k t' ht => ?_) hS.nonneg hS.trades
  obtain ⟨t, h₀, ho, _, hi, hb⟩ := markTraders_getElem? ht
  exact ⟨t, h₀, ho, by rw [hi], by rw [hb]⟩

/-- The order a step appends, as it stands in the book. -/
def placed (e : Exchange) (o : Order) : Order := { o with orderIndex := e.orderbook.length }

theorem getElem?_snoc {α : Type*} {l : List α} {x y : α} {k : Nat} (h : (l ++ [x])[k]? = some y) :
    l[k]? = some y ∨ k = l.length ∧ y = x := by
  by_cases hk : k < l.length
  · rw [List.getElem?_append_left hk] at h
    exact Or.inl h
  · rw [List.getElem?_append_right (by omega)] at h
    have hlt := (List.getElem?_eq_some_iff.mp h).1
    have e : k = l.length := by simp at hlt; omega
    subst e
    rw [Nat.sub_self] at h
    exact Or.inr ⟨rfl, (Option.some.inj h).symm⟩

theorem bookOk_append {t : Nat} {o : Order} (hB : BookOk e) (h : Fresh e t o) :
    BookOk (marketAddOrder e o) := by
  refine ⟨fun k x hx => ?_, fun k x hx => ?_, fun k x hx => ?_, fun k x hx hc => ?_⟩
  · rcases getElem?_snoc hx with hx | ⟨rfl, rfl⟩
    · exact hB.index k x hx
    · rfl
  · rcases getElem?_snoc hx with hx | ⟨rfl, rfl⟩
    · exact hB.owner k x hx
    · show o.trader < e.traders.length
      rw [h.owner]
      exact h.listed
  · rcases getElem?_snoc hx with hx | ⟨rfl, rfl⟩
    · exact hB.item k x hx
    · exact h.item
  · rcases getElem?_snoc hx with hx | ⟨rfl, rfl⟩
    · exact hB.positive k x hx hc
    · exact h.positive

theorem bookOk_onTrader {t : Nat} {f : Trader → Trader} (hB : BookOk e) : BookOk (e.onTrader t f) :=
  ⟨hB.index, fun k o ho => by
    simp only [Exchange.onTrader, List.length_modify]
    exact hB.owner k o ho, hB.item, hB.positive⟩

/-- After `marketAddOrder` the traders' lists may be rewritten, as long as every entry stays an
    order of its trader and every id keeps an entry. -/
theorem sound_append {t : Nat} {o : Order} {f : Trader → Trader} (hS : Sound e) (h : Fresh e t o)
    (hf : ∀ tr, (f tr).inventoryQuantity = tr.inventoryQuantity ∧ (f tr).bank = tr.bank)
    (hent : ∀ (tr : Trader) (r : Nat), e.traders[t]? = some tr → r ∈ (f tr).orders →
      r ∈ tr.orders ∨ r = e.orderbook.length)
    (hlist : ∀ tr, e.traders[t]? = some tr → ∀ d,
      ((∃ r ∈ tr.orders, idAt e.orderbook r = some d) ∨ d = o.orderId) →
      ∃ r ∈ (f tr).orders, idAt (marketAddOrder e o).orderbook r = some d) :
    Sound ((marketAddOrder e o).onTrader t f) := by
  have hg : Grows e.orderbook (marketAddOrder e o).orderbook := grows_append _ _
  have hnew : (marketAddOrder e o).orderbook[e.orderbook.length]? = some (placed e o) := by
    simp [marketAddOrder, placed]
  refine ⟨bookOk_onTrader (bookOk_append hS.toBookOk h), fun k x hx => ?_, fun k tr r hk hr => ?_,
    fun k x tr hx hk => ?_, fun k tr hk => ?_, trades_grow hg hS.trades⟩
  · rcases getElem?_snoc hx with hx | ⟨rfl, rfl⟩
    · exact hS.nonneg k x hx
    · have := h.positive
      show 0 ≤ o.quantity
      omega
  · obtain ⟨tr₀, h₀, ⟨_, rfl⟩ | ⟨rfl, rfl⟩⟩ := getElem?_modify_of hk
    · obtain ⟨x, hx, hxt⟩ := hS.entries k tr r h₀ hr
      obtain ⟨x', hx', he⟩ := hg r x hx
      exact ⟨x', hx', by rw [he.trader, hxt]⟩
    · rcases hent tr₀ r h₀ hr with hr | rfl
      · obtain ⟨x, hx, hxt⟩ := hS.entries t tr₀ r h₀ hr
        obtain ⟨x', hx', he⟩ := hg r x hx
        exact ⟨x', hx', by rw [he.trader, hxt]⟩
      · exact ⟨placed e o, hnew, h.owner⟩
  · obtain ⟨tr₀, h₀, hcase⟩ := getElem?_modify_of hk
    rcases getElem?_snoc hx with hx | ⟨rfl, rfl⟩
    · obtain ⟨r, hr, hid⟩ := hS.listed k x tr₀ hx h₀
      rcases hcase with ⟨_, rfl⟩ | ⟨rfl, rfl⟩
      · exact ⟨r, hr, idAt_grows hg hid⟩
      · exact hlist tr₀ h₀ x.orderId (Or.inl ⟨r, hr, hid⟩)
    · have ht : o.trader = t := h.owner
      have h₀' : e.traders[t]? = some tr₀ := by rw [← ht]; exact h₀
      rcases hcase with ⟨hne, _⟩ | ⟨_, rfl⟩
      · exact absurd ht.symm hne
      · exact hlist tr₀ h₀' o.orderId (Or.inr rfl)
  · obtain ⟨tr₀, h₀, ⟨_, rfl⟩ | ⟨_, rfl⟩⟩ := getElem?_modify_of hk
    · exact hS.width k tr h₀
    · rw [(hf tr₀).1, (hf tr₀).2]
      exact hS.width k tr₀ h₀

theorem idAt_new (o : Order) : idAt (marketAddOrder e o).orderbook e.orderbook.length =
    some o.orderId := by
  simp [idAt, marketAddOrder]

theorem sound_enter {t : Nat} {o : Order} (hS : Sound e) (h : Fresh e t o) :
    Sound (enterOrder e t o) := by
  have hg : Grows e.orderbook (marketAddOrder e o).orderbook := grows_append _ _
  refine sound_append hS h (fun tr => ⟨rfl, rfl⟩) (fun tr r _ hr => ?_) (fun tr _ d hd => ?_)
  · rcases List.mem_append.mp hr with hr | hr
    · exact Or.inl hr
    · exact Or.inr (List.mem_singleton.mp hr)
  · rcases hd with ⟨r, hr, hid⟩ | rfl
    · exact ⟨r, List.mem_append_left _ hr, idAt_grows hg hid⟩
    · exact ⟨_, List.mem_append_right _ List.mem_cons_self, idAt_new o⟩

theorem sound_replace {t i : Nat} {o old : Order} (hS : Sound e) (h : AmendEntry e t i o old) :
    Sound (replaceOrder e t i o) := by
  have hg : Grows e.orderbook (marketAddOrder e o).orderbook := grows_append _ _
  have hmid : Sound ((marketAddOrder e o).onTrader t
      (traderAmendOrder (marketAddOrder e o).orderbook · e.orderbook.length)) := by
    refine sound_append hS h.toFresh (fun tr => ⟨rfl, rfl⟩) (fun tr r _ hr => ?_) (fun tr htr d hd => ?_)
    · obtain ⟨r₀, hr₀, rfl⟩ := List.mem_map.mp hr
      split
      · exact Or.inr rfl
      · exact Or.inl hr₀
    · -- the entry with the id `d`, rewritten or not, still has the id `d`
      have hd' : ∃ r ∈ tr.orders, idAt e.orderbook r = some d := by
        rcases hd with hd | rfl
        · exact hd
        · rw [h.sameId]
          exact hS.listed i old tr h.place (by rw [h.oldOwner]; exact htr)
      obtain ⟨r, hr, hid⟩ := hd'
      refine ⟨_, List.mem_map_of_mem hr, ?_⟩
      split
      · rename_i heq
        rw [← heq]
        exact idAt_grows hg hid
      · exact idAt_grows hg hid
  refine sound_close (o := old) hmid ?_ h.oldOpen
  show (e.orderbook ++ [_])[i]? = some old
  rw [List.getElem?_append_left (List.getElem?_eq_some_iff.mp h.place).1]
  exact h.place

/-- **The amended order is the one `getOrder` finds**: every entry with its id now points to it. -/
theorem getOrder_replaceOrder {t i : Nat} {tr : Trader} {o old : Order} (hS : Sound e)
    (h : AmendEntry e t i o old) (ht : e.traders[t]? = some tr) :
    ∃ tr', (replaceOrder e t i o).traders[t]? = some tr' ∧
      getOrder (replaceOrder e t i o).orderbook tr' o.orderId = some e.orderbook.length := by
  have hg : Grows e.orderbook (marketAddOrder e o).orderbook := grows_append _ _
  have hid : ∀ r, idAt (replaceOrder e t i o).orderbook r = idAt (marketAddOrder e o).orderbook r := by
    intro r
    show (((marketAddOrder e o).orderbook.modify i closeOrder)[r]?).map _ = _
    unfold idAt
    by_cases hr : i = r
    · subst hr
      rw [List.getElem?_modify_eq]
      cases (marketAddOrder e o).orderbook[i]? <;> rfl
    · rw [List.getElem?_modify_ne _ _ hr]
  refine ⟨traderAmendOrder (marketAddOrder e o).orderbook tr e.orderbook.length, ?_, ?_⟩
  · show (e.traders.modify t _)[t]? = _
    rw [List.getElem?_modify_eq, ht]
    rfl
  · obtain ⟨r, hr, hrid⟩ := hS.listed i old tr h.place (by rw [h.oldOwner]; exact ht)
    unfold getOrder
    -- an entry with the id exists, and every entry with the id has been rewritten
    have hhit : ∃ s ∈ (traderAmendOrder (marketAddOrder e o).orderbook tr
        e.orderbook.length).orders, idAt (replaceOrder e t i o).orderbook s = some o.orderId := by
      refine ⟨_, List.mem_map_of_mem hr, ?_⟩
      rw [if_pos, hid, idAt_new]
      rw [idAt_new, idAt_grows hg hrid, h.sameId]
    have hall : ∀ s ∈ (traderAmendOrder (marketAddOrder e o).orderbook tr
        e.orderbook.length).orders, idAt (replaceOrder e t i o).orderbook s = some o.orderId →
        s = e.orderbook.length := by
      intro s hs hsid
      obtain ⟨s₀, _, rfl⟩ := List.mem_map.mp hs
      split at hsid
      · rename_i heq
        rw [if_pos heq]
      · rename_i hne
        rw [hid] at hsid
        exact absurd (hsid.trans (idAt_new o).symm) hne
    cases hf : List.find? (fun s => decide (idAt (replaceOrder e t i o).orderbook s = some o.orderId))
        (traderAmendOrder (marketAddOrder e o).orderbook tr e.orderbook.length).orders with
    | none =>
        obtain ⟨s, hs, hsid⟩ := hhit
        exact absurd (decide_eq_true hsid) (List.find?_eq_none.mp hf s hs)
    | some s =>
        have hs := List.find?_some hf
        rw [hall s (List.mem_of_find?_eq_some hf) (of_decide_eq_true hs)]

end Changes

/-! ## 3. The three kinds of steps -/

/-- The invariant of main: a sound exchange, and `order` is NULL or an order of the book. -/
structure MainOk (m : Main) : Prop where
  sound : Sound m.exchange
  order : ∀ r, m.order = some r → r < m.exchange.orderbook.length

section Next

variable {fee : Int → Int} {m : Main} {i : Input}

/-- The BUY/SELL branch, once `newOrder` has accepted. -/
theorem orderReceived_some {argv : List Word} {sender pid : Nat} {tr : Trader} {o : Order}
    (h : newOrder argv sender tr (orderTypeOf (argAt argv 0)) = some o) :
    orderReceived fee m argv sender pid tr =
      ({ m with
          exchange := (tradeLoop fee o.orderType (some m.exchange.orderbook.length)
            (enterOrder m.exchange sender o).orderbook.length
            (placeFor fee o.orderType (enterOrder m.exchange sender o)
              (some m.exchange.orderbook.length))).2.2
          marketArgv := argv
          order := some m.exchange.orderbook.length },
        notify sender pid (acceptedText o.orderId) ++
        broadcast (enterOrder m.exchange sender o).traders sender
          (marketText (argAt argv 0) o.item o.quantity o.unitPrice) ++
        (tradeLoop fee o.orderType (some m.exchange.orderbook.length)
            (enterOrder m.exchange sender o).orderbook.length
            (placeFor fee o.orderType (enterOrder m.exchange sender o)
              (some m.exchange.orderbook.length))).2.1) := by
  simp only [orderReceived, h]

/-- The new order after an AMEND. -/
theorem replaceOrder_new {e : Exchange} {t k : Nat} {o old : Order} (h : AmendEntry e t k o old) :
    (replaceOrder e t k o).orderbook[e.orderbook.length]? = some (placed e o) := by
  have hk := (List.getElem?_eq_some_iff.mp h.place).1
  show ((e.orderbook ++ [_]).modify k closeOrder)[_]? = _
  rw [List.getElem?_modify_ne _ _ (by omega)]
  simp [placed]

/-- The AMEND branch, once `amend` has found the order to replace. -/
theorem amendRequest_some {argv : List Word} {sender pid k : Nat} {tr : Trader} {o old : Order}
    (hS : Sound m.exchange) (htr : m.exchange.traders[sender]? = some tr)
    (hold : AmendEntry m.exchange sender k o old)
    (h : amendSearch argv m.exchange sender tr = some (k, o)) :
    amendRequest fee m argv sender pid tr =
      ({ m with
          exchange := (tradeLoop fee o.orderType m.order
            (replaceOrder m.exchange sender k o).orderbook.length
            (placeFor fee o.orderType (replaceOrder m.exchange sender k o)
              (some m.exchange.orderbook.length))).2.2
          marketArgv := argv },
        notify sender pid (amendedText (argAt argv 1)) ++
        broadcast (replaceOrder m.exchange sender k o).traders sender
          (marketText (typeText o.orderType) o.item o.quantity o.unitPrice) ++
        (tradeLoop fee o.orderType m.order (replaceOrder m.exchange sender k o).orderbook.length
            (placeFor fee o.orderType (replaceOrder m.exchange sender k o)
              (some m.exchange.orderbook.length))).2.1) := by
  obtain ⟨tr', htr', hget⟩ := getOrder_replaceOrder hS hold htr
  have hid := (amendSearch_spec hS.toBookOk htr h).1
  rw [hid] at hget
  simp only [amendRequest, amend, h, Option.map_some, htr', Option.bind_some, hget,
    replaceOrder_new hold]
  rfl

/-- **A new order**: it is entered and then swept until NULL. -/
theorem next_new (fee : Int → Int) {t : Nat} {o : Order} (hS : Sound m.exchange) (h : entryOf m i = .new t o) :
    ∃ ts, Sweep fee o.orderType (some m.exchange.orderbook.length) (enterOrder m.exchange t o) ts
        (mainNext fee m i).exchange ∧
      (mainNext fee m i).order = some m.exchange.orderbook.length := by
  have hB : BookOk (enterOrder m.exchange t o) :=
    (sound_enter hS (entryOf_new h).toFresh).toBookOk
  obtain ⟨_, _, tr, argv, -, -, -, -, hmsg, hnew, hstep⟩ := entryOf_eq_new fee h
  unfold mainNext
  rw [hstep, handleMessage_order hmsg, orderReceived_some hnew]
  exact ⟨_, tradeLoop_done fee _ _ hB, rfl⟩

/-- main's loop after a first call for the amended order. -/
theorem tradeLoop_after (fee : Int → Int) (side : OrderType) (order order' : Option Nat)
    {e : Exchange} (hB : BookOk e) :
    ((placeFor fee side e order').1 = none ∧
      tradeLoop fee side order e.orderbook.length (placeFor fee side e order') = ([], [], e)) ∨
    ∃ t e₁, placeFor fee side e order' = (some t, e₁) ∧
      Sweep fee side order e₁
        (tradeLoop fee side order e.orderbook.length (placeFor fee side e order')).1.tail
        (tradeLoop fee side order e.orderbook.length (placeFor fee side e order')).2.2 ∧
      (tradeLoop fee side order e.orderbook.length (placeFor fee side e order')).1.head? = some t := by
  rcases placeFor_cases fee hB side order' with ⟨h, _⟩ | ⟨r, b, o, best, _, hM, h⟩
  · rw [h]
    refine Or.inl ⟨rfl, ?_⟩
    cases e.orderbook.length <;> rfl
  · rw [h]
    refine Or.inr ⟨_, _, rfl, ?_⟩
    have hB₁ := bookOk_applyMatch fee hB hM
    have hlt := openCount_applyMatch fee hM
    have hle := openCount_le e
    obtain ⟨n, hn⟩ : ∃ n, e.orderbook.length = n + 1 := ⟨e.orderbook.length - 1, by omega⟩
    obtain ⟨ts, e', hs, hl⟩ := sweep_total fee side order hB₁
    obtain ⟨h1, h2⟩ := tradeLoop_of_sweep hs n (by omega)
    rw [hn]
    refine ⟨?_, rfl⟩
    show Sweep fee side order _ (tradeLoop fee side order n _).1 (tradeLoop fee side order n _).2.2
    rw [h1, h2]
    exact hs

/-- **An amended order**: the order replaced is closed, the new one is placed once, and if that
    traded, what `order` points to is swept until NULL. -/
theorem next_amended (fee : Int → Int) {t k : Nat} {o : Order} (hS : Sound m.exchange)
    (h : entryOf m i = .amended t k o) :
    (mainNext fee m i).order = m.order ∧
    (((placeFor fee o.orderType (replaceOrder m.exchange t k o)
          (some m.exchange.orderbook.length)).1 = none ∧
        (mainNext fee m i).exchange = replaceOrder m.exchange t k o) ∨
      ∃ x e₁ ts, placeFor fee o.orderType (replaceOrder m.exchange t k o)
          (some m.exchange.orderbook.length) = (some x, e₁) ∧
        Sweep fee o.orderType m.order e₁ ts (mainNext fee m i).exchange) := by
  obtain ⟨old, hold⟩ := entryOf_amended hS.toBookOk h
  have hB : BookOk (replaceOrder m.exchange t k o) := (sound_replace hS hold).toBookOk
  obtain ⟨_, _, tr, argv, -, htr, hmsg, hsearch, hstep⟩ := entryOf_eq_amended fee h
  unfold mainNext
  rw [hstep, handleMessage_amend hmsg, amendRequest_some hS htr hold hsearch]
  refine ⟨rfl, ?_⟩
  rcases tradeLoop_after fee o.orderType m.order (some m.exchange.orderbook.length) hB with
    ⟨h1, h2⟩ | ⟨x, e₁, h1, h2, _⟩
  · refine Or.inl ⟨h1, ?_⟩
    show (tradeLoop fee o.orderType m.order _ _).2.2 = _
    rw [h2]
  · exact Or.inr ⟨x, e₁, _, h1, h2⟩

/-- **Every other step** closes one open order, marks traders, or leaves the exchange alone. -/
theorem next_none (fee : Int → Int) (h : entryOf m i = .none) :
    ((mainNext fee m i).exchange = m.exchange ∨
      (∃ r o, m.exchange.orderbook[r]? = some o ∧ o.completed = false ∧
        (mainNext fee m i).exchange = m.exchange.onOrder r closeOrder) ∨
      ∃ pid, i = .poll pid true ∧ (mainNext fee m i).exchange = markTraders m.exchange pid) ∧
    ((mainNext fee m i).order = m.order ∨ (mainNext fee m i).order = none) := by
  cases i with
  | poll pid exited =>
      unfold mainNext mainStep
      simp only
      split
      · exact ⟨Or.inl rfl, Or.inl rfl⟩
      · refine ⟨?_, Or.inl ?_⟩
        · unfold pollTraders
          cases exited
          · exact Or.inl rfl
          · exact Or.inr (Or.inr ⟨pid, rfl, rfl⟩)
        · unfold pollTraders
          cases exited <;> rfl
  | command pid text =>
      rcases command_cases fee m pid text with ⟨hstep, _⟩ | ⟨sender, tr, _, _, htr, hstep, he⟩
      · unfold mainNext
        rw [hstep]
        exact ⟨Or.inl rfl, Or.inl rfl⟩
      · rw [he] at h
        unfold mainNext
        rw [hstep]
        rcases message_cases fee m sender pid tr text with ⟨argv, order, _, horder, _, hh⟩ |
          ⟨_, _, _, _, he', _⟩ | ⟨_, _, _, _, _, he', _⟩ | ⟨argv, d, r, o, _, hr, ho, _, hh⟩
        · rw [hh]
          exact ⟨Or.inl rfl, horder⟩
        · rw [he'] at h
          cases h
        · rw [he'] at h
          cases h
        · rw [hh]
          exact ⟨Or.inr (Or.inl ⟨r, o, hr, ho, rfl⟩), Or.inl rfl⟩

end Next

/-! ## 4. The invariant rule -/

section Rule

variable {fee : Int → Int} {I : Exchange → Prop}
  (hmatch : ∀ (e : Exchange) (side : OrderType) (r b : Nat) (o best : Order), Sound e → I e →
    Match e side r b o best → I (applyMatch fee e side r b o best))

include hmatch

/-- What a match keeps, the calls of one order keep. -/
theorem placeFor_inv {e : Exchange} (side : OrderType) (order : Option Nat) (hS : Sound e)
    (hI : I e) : Sound (placeFor fee side e order).2 ∧ I (placeFor fee side e order).2 := by
  rcases placeFor_cases fee hS.toBookOk side order with ⟨h, _⟩ | ⟨r, b, o, best, _, hM, h⟩
  · rw [h]
    exact ⟨hS, hI⟩
  · rw [h]
    exact ⟨sound_match hS hM, hmatch e side r b o best hS hI hM⟩

theorem sweep_inv {e e' : Exchange} {side : OrderType} {order : Option Nat} {ts : List Trade}
    (h : Sweep fee side order e ts e') (hS : Sound e) (hI : I e) : Sound e' ∧ I e' := by
  refine repeats_inv (I := fun e => Sound e ∧ I e) (fun s s' ot hs hf => ?_) h ⟨hS, hI⟩
  have hs' := placeFor_inv hmatch side order hs.1 hs.2
  rw [hf] at hs'
  exact hs'

/-- **The invariant rule of a step**: `I` holds after it if every match keeps it, and it holds
    of the exchange as the command leaves it before the matches. -/
theorem mainNext_inv {m : Main} {i : Input} (hS : Sound m.exchange)
    (hnew : ∀ t o, entryOf m i = .new t o → NewEntry m.exchange t o → I (enterOrder m.exchange t o))
    (hamended : ∀ t k o old, entryOf m i = .amended t k o → AmendEntry m.exchange t k o old →
      I (replaceOrder m.exchange t k o))
    (hnone : entryOf m i = .none → I m.exchange)
    (hclose : ∀ (r : Nat) (o : Order), entryOf m i = .none → m.exchange.orderbook[r]? = some o →
      o.completed = false → I (m.exchange.onOrder r closeOrder))
    (hmark : ∀ pid, i = .poll pid true → I (markTraders m.exchange pid)) :
    Sound (mainNext fee m i).exchange ∧ I (mainNext fee m i).exchange := by
  cases h : entryOf m i with
  | none =>
      rcases (next_none fee h).1 with he | ⟨r, o, hr, ho, he⟩ | ⟨pid, hi, he⟩ <;> rw [he]
      · exact ⟨hS, hnone h⟩
      · exact ⟨sound_close hS hr ho, hclose r o h hr ho⟩
      · exact ⟨sound_mark hS pid, hmark pid hi⟩
  | new t o =>
      have hfresh := entryOf_new h
      obtain ⟨ts, hs, _⟩ := next_new fee hS h
      exact sweep_inv hmatch hs (sound_enter hS hfresh.toFresh) (hnew t o h hfresh)
  | amended t k o =>
      obtain ⟨old, hold⟩ := entryOf_amended hS.toBookOk h
      have hS' := sound_replace hS hold
      have hI' := hamended t k o old h hold
      rcases (next_amended fee hS h).2 with ⟨_, he⟩ | ⟨x, e₁, ts, hp, hs⟩
      · rw [he]
        exact ⟨hS', hI'⟩
      · have h₁ := placeFor_inv hmatch o.orderType (some m.exchange.orderbook.length) hS' hI'
        rw [hp] at h₁
        exact sweep_inv hmatch hs h₁.1 h₁.2

end Rule

/-! ## 5. Every reachable state -/

theorem map_modify_same {α β : Type*} {f : α → β} {g : α → α} (hg : ∀ x, f (g x) = f x) (l : List α)
    (i : Nat) : (l.modify i g).map f = l.map f := by
  refine List.ext_getElem? fun k => ?_
  rw [List.getElem?_map, List.getElem?_map, List.getElem?_modify]
  cases l[k]? with
  | none => rfl
  | some x =>
      by_cases h : i = k
      · simp [h, hg]
      · simp [h]

section Reachable

variable {fee : Int → Int} {m : Main}

/-- **A step only adds to the book.** -/
theorem next_grows (fee : Int → Int) (hS : Sound m.exchange) (i : Input) :
    Grows m.exchange.orderbook (mainNext fee m i).exchange.orderbook := by
  refine (mainNext_inv (I := fun e => Grows m.exchange.orderbook e.orderbook)
    (fun e side r b o best _ hg hM => hg.trans (grows_match _ hM)) hS ?_ ?_ ?_ ?_ ?_).2
  · exact fun t o _ _ => grows_append _ _
  · exact fun t k o old _ hold => grows_replace hold
  · exact fun _ => Grows.refl _
  · exact fun r o _ hr ho => grows_close hr ho
  · exact fun _ _ => Grows.refl _

/-- After a new order the book is longer. -/
theorem next_new_grows (fee : Int → Int) {i : Input} {t : Nat} {o : Order} (hS : Sound m.exchange)
    (h : entryOf m i = .new t o) :
    Grows (enterOrder m.exchange t o).orderbook (mainNext fee m i).exchange.orderbook := by
  obtain ⟨ts, hs, _⟩ := next_new fee hS h
  exact (sweep_inv (I := fun e => Grows (enterOrder m.exchange t o).orderbook e.orderbook)
    (fun e side r b o best _ hg hM => hg.trans (grows_match _ hM)) hs
    (sound_enter hS (entryOf_new h).toFresh) (Grows.refl _)).2

/-- **What an order keeps while it is filled and closed**, and the entered order has, every order
    of the book has. -/
theorem book_next (fee : Int → Int) {P : Order → Prop} {i : Input}
    (hP : ∀ {o o' : Order}, Evolves o o' → P o → P o') (hS : Sound m.exchange)
    (hold : ∀ (k : Nat) (o : Order), m.exchange.orderbook[k]? = some o → P o)
    (hnew : ∀ t o, entryOf m i = .new t o → P (placed m.exchange o))
    (hamended : ∀ t k o, entryOf m i = .amended t k o → P (placed m.exchange o)) :
    ∀ (k : Nat) (o : Order), (mainNext fee m i).exchange.orderbook[k]? = some o → P o := by
  refine (mainNext_inv (I := fun e => ∀ (k : Nat) (o : Order), e.orderbook[k]? = some o → P o)
    (fun e side r b o best _ hI hM k x hx => ?_) hS ?_ ?_ ?_ ?_ ?_).2
  · obtain ⟨x₀, hx₀, he⟩ := (grows_match fee hM).back applyMatch_book_length hx
    exact hP he (hI k x₀ hx₀)
  · intro t o h _ k x hx
    rcases getElem?_snoc hx with hx | ⟨_, rfl⟩
    · exact hold k x hx
    · exact hnew t o h
  · intro t k₀ o old h hold' k x hx
    have hk₀ := (List.getElem?_eq_some_iff.mp hold'.place).1
    obtain ⟨x₁, hx₁, ⟨_, rfl⟩ | ⟨rfl, rfl⟩⟩ := getElem?_modify_of hx
    · rcases getElem?_snoc hx₁ with hx₀ | ⟨_, rfl⟩
      · exact hold k x hx₀
      · exact hamended t k₀ o h
    · have hplace : (m.exchange.orderbook ++ [placed m.exchange o])[k₀]? = some old :=
        (List.getElem?_append_left hk₀).trans hold'.place
      cases hplace.symm.trans hx₁
      exact hP (evolves_close hold'.oldOpen) (hold k₀ old hold'.place)
  · exact fun _ => hold
  · intro r o _ hr ho k x hx
    obtain ⟨x₁, hx₁, ⟨_, rfl⟩ | ⟨rfl, rfl⟩⟩ := getElem?_modify_of hx
    · exact hold k x hx₁
    · rw [hr] at hx₁
      cases hx₁
      exact hP (evolves_close ho) (hold r o hr)
  · exact fun _ _ => hold

/-- **`Sound` is kept by every step.** -/
theorem mainOk_next (fee : Int → Int) (h : MainOk m) (i : Input) : MainOk (mainNext fee m i) := by
  have hS : Sound (mainNext fee m i).exchange :=
    (mainNext_inv (I := fun _ => True) (fun _ _ _ _ _ _ _ _ _ => trivial) h.sound
      (fun _ _ _ _ => trivial) (fun _ _ _ _ _ _ => trivial) (fun _ => trivial)
      (fun _ _ _ _ _ => trivial) (fun _ _ => trivial)).1
  have hle := (next_grows fee h.sound i).length_le
  refine ⟨hS, fun r hr => ?_⟩
  cases he : entryOf m i with
  | none =>
      rcases (next_none fee he).2 with ho | ho <;> rw [ho] at hr
      · exact Nat.lt_of_lt_of_le (h.order r hr) hle
      · cases hr
  | new t o =>
      obtain ⟨_, _, ho⟩ := next_new fee h.sound he
      rw [ho] at hr
      cases hr
      have hlen := (next_new_grows fee h.sound he).length_le
      rw [enterOrder_book, List.length_append] at hlen
      exact hlen
  | amended t k o =>
      rw [(next_amended fee h.sound he).1] at hr
      exact Nat.lt_of_lt_of_le (h.order r hr) hle

theorem mainOk_init (products : List Word) (pids : List Nat) (argv : List Word) :
    MainOk (mainInit products pids argv) := by
  have hno : ∀ (k : Nat) (o : Order),
      (mainInit products pids argv).exchange.orderbook[k]? = some o → False := by
    intro k o h
    cases h
  refine ⟨⟨⟨fun k o h => (hno k o h).elim, fun k o h => (hno k o h).elim,
    fun k o h => (hno k o h).elim, fun k o h => (hno k o h).elim⟩, fun k o h => (hno k o h).elim,
    fun t tr r ht hr => ?_, fun k o tr h => (hno k o h).elim, fun t tr ht => ?_,
    fun x hx => by cases hx⟩, fun r h => by cases h⟩
  all_goals
    simp only [mainInit, List.getElem?_map] at ht
    obtain ⟨pid, _, rfl⟩ := Option.map_eq_some_iff.mp ht
  · cases hr
  · exact ⟨List.length_replicate, List.length_replicate⟩

/-- The traders keep their process ids. -/
theorem next_pids (fee : Int → Int) (hS : Sound m.exchange) (i : Input) :
    (mainNext fee m i).exchange.traders.map (·.traderPid) =
      m.exchange.traders.map (·.traderPid) := by
  refine (mainNext_inv
    (I := fun e => e.traders.map (·.traderPid) = m.exchange.traders.map (·.traderPid))
    (fun e side r b o best _ hp _ => ?_) hS ?_ ?_ ?_ ?_ ?_).2
  · rw [← hp]
    show (settle e.products side o best _ _ _ e.traders).map _ = _
    unfold settle
    rw [map_modify_same, map_modify_same, map_modify_same]
    all_goals exact fun _ => rfl
  · intro t o _ _
    refine map_modify_same (fun _ => ?_) m.exchange.traders t
    rfl
  · intro t k o old _ _
    refine map_modify_same (fun _ => ?_) m.exchange.traders t
    rfl
  · exact fun _ => rfl
  · exact fun _ _ _ _ _ => rfl
  · intro pid _
    exact markTraders_map (fun _ => rfl) m.exchange pid

/-- The list of products stays. -/
theorem next_products (fee : Int → Int) (hS : Sound m.exchange) (i : Input) :
    (mainNext fee m i).exchange.products = m.exchange.products :=
  (mainNext_inv (I := fun e => e.products = m.exchange.products) (fun _ _ _ _ _ _ _ hp _ => hp) hS
    (fun _ _ _ _ => rfl) (fun _ _ _ _ _ _ => rfl) (fun _ => rfl) (fun _ _ _ _ _ => rfl)
    (fun _ _ => rfl)).2

/-- `market_argv` keeps its entries. -/
theorem next_argv (fee : Int → Int) (m : Main) (i : Input) :
    (mainNext fee m i).marketArgv.length = m.marketArgv.length := by
  cases i with
  | poll pid exited =>
      unfold mainNext mainStep pollTraders
      cases exited <;> cases m.exchangeDisconnect <;> rfl
  | command pid text =>
      rcases command_cases fee m pid text with ⟨hstep, _⟩ | ⟨sender, tr, _, _, _, hstep, _⟩
      · unfold mainNext
        rw [hstep]
      · have hlen := splitMessage_length (messageOf tr text) m.marketArgv
        rw [← readMessage_argv (messageOf tr text) m.marketArgv m.exchange.products] at hlen
        unfold mainNext
        rw [hstep, ← hlen]
        refine congrArg List.length ?_
        rcases message_cases fee m sender pid tr text with ⟨argv, order, hargv, _, _, hh⟩ |
          ⟨argv, o, hmsg, hnew, _, hh⟩ | ⟨argv, k, o, hmsg, _, _, hh⟩ |
          ⟨argv, d, r, o, hargv, _, _, _, hh⟩
        · rw [hh, hargv]
        · rw [hh, hmsg, orderReceived_some hnew]
        · rw [hh, hmsg]
          unfold amendRequest
          split
          · rfl
          · split
            · rfl
            · split <;> rfl
        · rw [hh, hargv]

/-- A command moves neither the counter nor the flag that ends the loop. -/
theorem command_online (fee : Int → Int) (m : Main) (pid : Nat) (text : List Char) :
    (mainNext fee m (.command pid text)).tradersOnline = m.tradersOnline ∧
    (mainNext fee m (.command pid text)).exchangeDisconnect = m.exchangeDisconnect := by
  unfold mainNext
  rcases command_cases fee m pid text with ⟨h, _⟩ | ⟨sender, tr, _, _, _, h, _⟩
  · rw [h]
    exact ⟨rfl, rfl⟩
  · rw [h]
    rcases message_cases fee m sender pid tr text with ⟨argv, order, _, _, _, hh⟩ |
      ⟨argv, o, _, hnew, _, hh⟩ | ⟨argv, k, o, _, _, _, hh⟩ | ⟨argv, d, r, o, _, _, _, _, hh⟩
    · rw [hh]
      exact ⟨rfl, rfl⟩
    · rw [hh, orderReceived_some hnew]
      exact ⟨rfl, rfl⟩
    · rw [hh]
      unfold amendRequest
      split
      · exact ⟨rfl, rfl⟩
      · split
        · exact ⟨rfl, rfl⟩
        · split <;> exact ⟨rfl, rfl⟩
    · rw [hh]
      exact ⟨rfl, rfl⟩

/-- **Every reachable state is sound.** -/
theorem mainOk_run (fee : Int → Int) (products : List Word) (pids : List Nat) (argv : List Word)
    (is : List Input) : MainOk (mainRun fee products pids argv is) :=
  run_inv (I := MainOk) (fun _ i h => mainOk_next fee h i) is
    (mainOk_init products pids argv)

/-- **What every step from a sound state keeps holds in every reachable state.** -/
theorem reachable_inv {fee : Int → Int} {products : List Word} {pids : List Nat} {argv : List Word}
    {I : Main → Prop} (hinit : I (mainInit products pids argv))
    (hstep : ∀ m i, MainOk m → I m → I (mainNext fee m i)) (is : List Input) :
    I (mainRun fee products pids argv is) :=
  (run_inv (I := fun m => MainOk m ∧ I m)
    (fun m i h => ⟨mainOk_next fee h.1 i, hstep m i h.1 h.2⟩) is
    ⟨mainOk_init products pids argv, hinit⟩).2

theorem pids_run (fee : Int → Int) (products : List Word) (pids : List Nat) (argv : List Word)
    (is : List Input) :
    (mainRun fee products pids argv is).exchange.traders.map (·.traderPid) = pids :=
  reachable_inv (I := fun m => m.exchange.traders.map (·.traderPid) = pids)
    (by simp [mainInit, instTrader, Function.comp_def])
    (fun _ i hok h => (next_pids fee hok.sound i).trans h) is

theorem products_run (fee : Int → Int) (products : List Word) (pids : List Nat) (argv : List Word)
    (is : List Input) : (mainRun fee products pids argv is).exchange.products = products :=
  reachable_inv (I := fun m => m.exchange.products = products) rfl
    (fun _ i hok h => (next_products fee hok.sound i).trans h) is

theorem argv_run (fee : Int → Int) (products : List Word) (pids : List Nat) {argv : List Word}
    (hargv : argv.length = commandArgc) (is : List Input) :
    (mainRun fee products pids argv is).marketArgv.length = commandArgc :=
  reachable_inv (I := fun m => m.marketArgv.length = commandArgc) hargv
    (fun m i _ h => (next_argv fee m i).trans h) is

end Reachable

end SysProg.Pe
