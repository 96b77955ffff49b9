/-
  File:      SysProg/Pe/Numbering.lean
  Subject:   ORDER IDS, AND THE TWO INDEXES OVER THE ORDERS: the market book
             and the traders' own lists.

  `newOrder` checks an id against `order_count` from above only, so an id may
  be used again. As long as every accepted order carries its sender's
  `order_count`, the lists are numbered 0, 1, 2, ..., and the entry `i` of a
  list is the newest order of the book with that id.

  * `idsInOrder_run` -- the numbering holds throughout a run exactly if every
    accepted order carries the next id, and what follows from it;
  * `Newest` -- the other orders of the book with the id are closed;
  * `lists_agree` -- the two indexes agree, in every state of such a run.
-/
import Mathlib.Data.List.Nodup
import SysProg.Pe.Sound

namespace SysProg.Pe

open Lib

/-! ## 1. The numbering -/

/-- `trader->orders[i]->order_id = i`. -/
def IdsInOrder (e : Exchange) : Prop :=
  ∀ (t i r : Nat) (tr : Trader), e.traders[t]? = some tr → tr.orders[i]? = some r →
    idAt e.orderbook r = some (i : Int)

/-- If the step accepts a new order, its id is the `order_count` of its sender. -/
def EntersNext (m : Main) (i : Input) : Prop :=
  match entryOf m i with
  | .new t o => ∀ tr ∈ m.exchange.traders[t]?, o.orderId = tr.orderCount
  | _ => True

instance (m : Main) (i : Input) : Decidable (EntersNext m i) := by
  unfold EntersNext
  split <;> infer_instance

theorem EntersNext.eq {m : Main} {i : Input} {t : Nat} {o : Order} {tr : Trader}
    (h : EntersNext m i) (he : entryOf m i = .new t o) (ht : m.exchange.traders[t]? = some tr) :
    o.orderId = tr.orderCount := by
  unfold EntersNext at h
  rw [he] at h
  exact h tr ht

section Changes

variable {fee : Int → Int} {e e' : Exchange}

/-- The traders' lists are those of before. -/
def SameLists (e e' : Exchange) : Prop :=
  ∀ (k : Nat) (t' : Trader), e'.traders[k]? = some t' →
    ∃ t, e.traders[k]? = some t ∧ t'.orders = t.orders

theorem sameLists_match {side : OrderType} {r b : Nat} {o best : Order} :
    SameLists e (applyMatch fee e side r b o best) := by
  intro k t' ht'
  obtain ⟨t, ht, hs⟩ := steady_settle ht'
  exact ⟨t, ht, hs.orders⟩

theorem sameLists_mark (pid : Int) : SameLists e (markTraders e pid) := by
  intro k t' ht'
  obtain ⟨t, ht, ho, _⟩ := markTraders_getElem? ht'
  exact ⟨t, ht, ho⟩

theorem idsInOrder_of_lists (hI : IdsInOrder e) (hg : Grows e.orderbook e'.orderbook)
    (hl : SameLists e e') : IdsInOrder e' := by
  intro t i r tr ht hr
  obtain ⟨tr₀, ht₀, ho⟩ := hl t tr ht
  exact idAt_grows hg (hI t i r tr₀ ht₀ (ho ▸ hr))

theorem idsInOrder_enter {t : Nat} {o : Order} (hI : IdsInOrder e)
    (hnext : ∀ tr, e.traders[t]? = some tr → o.orderId = tr.orderCount) :
    IdsInOrder (enterOrder e t o) := by
  intro s i r tr hs hr
  obtain ⟨tr₀, hs₀, ⟨_, rfl⟩ | ⟨rfl, rfl⟩⟩ := getElem?_modify_of hs
  · exact idAt_grows (grows_append _ _) (hI s i r tr hs₀ hr)
  · rcases getElem?_snoc hr with hr | ⟨rfl, rfl⟩
    · exact idAt_grows (grows_append _ _) (hI t i r tr₀ hs₀ hr)
    · exact (idAt_new o).trans (congrArg some (hnext tr₀ hs₀))

/-- An entry of the sender after an AMEND, and the entry it was. -/
theorem replaceOrder_entry {t k s i r : Nat} {o : Order} {tr : Trader}
    (hs : (replaceOrder e t k o).traders[s]? = some tr) (hr : tr.orders[i]? = some r) :
    ∃ tr₀ r₀, e.traders[s]? = some tr₀ ∧ tr₀.orders[i]? = some r₀ ∧
      (r = r₀ ∧ (t = s → idAt (marketAddOrder e o).orderbook r₀ ≠ some o.orderId) ∨
        t = s ∧ r = e.orderbook.length ∧
          idAt (marketAddOrder e o).orderbook r₀ = some o.orderId) := by
  obtain ⟨tr₀, hs₀, ⟨hne, rfl⟩ | ⟨rfl, rfl⟩⟩ := getElem?_modify_of hs
  · exact ⟨tr, r, hs₀, hr, Or.inl ⟨rfl, fun h => absurd h hne⟩⟩
  · have hr' : (tr₀.orders.map fun r => if idAt (marketAddOrder e o).orderbook r =
        idAt (marketAddOrder e o).orderbook e.orderbook.length then e.orderbook.length else r)[i]? =
        some r := hr
    rw [List.getElem?_map] at hr'
    obtain ⟨r₀, hr₀, hif⟩ := Option.map_eq_some_iff.mp hr'
    rw [idAt_new] at hif
    refine ⟨tr₀, r₀, hs₀, hr₀, ?_⟩
    split at hif
    · rename_i hid
      exact Or.inr ⟨rfl, hif.symm, hid⟩
    · rename_i hid
      exact Or.inl ⟨hif.symm, fun _ => hid⟩

/-- An entry is replaced by one with the same id. -/
theorem idsInOrder_replace {t k : Nat} {o old : Order} (hI : IdsInOrder e)
    (h : AmendEntry e t k o old) : IdsInOrder (replaceOrder e t k o) := by
  intro s i r tr hs hr
  obtain ⟨tr₀, r₀, hs₀, hr₀, hcase⟩ := replaceOrder_entry hs hr
  have hid := hI s i r₀ tr₀ hs₀ hr₀
  rcases hcase with ⟨rfl, _⟩ | ⟨_, rfl, hid'⟩
  · exact idAt_grows (grows_replace h) hid
  · have hgrown : idAt (marketAddOrder e o).orderbook r₀ = some (i : Int) :=
      idAt_grows (grows_append _ _) hid
    rw [hgrown] at hid'
    have hnew : idAt (replaceOrder e t k o).orderbook e.orderbook.length = some o.orderId := by
      rw [idAt, replaceOrder_new h]
      rfl
    rw [hnew, ← hid']

end Changes

/-! ## 2. Exactly the runs that number their orders -/

theorem idsInOrder_next (fee : Int → Int) {m : Main} {i : Input} (hS : Sound m.exchange)
    (hI : IdsInOrder m.exchange) (hnext : EntersNext m i) : IdsInOrder (mainNext fee m i).exchange := by
  refine (mainNext_inv (I := IdsInOrder) (fun e side r b o best _ hI hM =>
    idsInOrder_of_lists hI (grows_match fee hM) sameLists_match) hS ?_ ?_ ?_ ?_ ?_).2
  · exact fun t o h _ => idsInOrder_enter hI fun tr ht => hnext.eq h ht
  · exact fun t k o old _ hold => idsInOrder_replace hI hold
  · exact fun _ => hI
  · exact fun r o _ hr ho =>
      idsInOrder_of_lists hI (grows_close hr ho) fun k t' ht' => ⟨t', ht', rfl⟩
  · exact fun pid _ => idsInOrder_of_lists hI (Grows.refl _) (sameLists_mark pid)

/-- The entry of a new order stands where `order_count` was, through the matches that follow. -/
theorem new_entry_stays (fee : Int → Int) {m : Main} {i : Input} {t : Nat} {o : Order} {tr : Trader}
    (hS : Sound m.exchange) (h : entryOf m i = .new t o) (ht : m.exchange.traders[t]? = some tr) :
    ∃ tr', (mainNext fee m i).exchange.traders[t]? = some tr' ∧
      tr'.orders[tr.orderCount]? = some m.exchange.orderbook.length ∧
      idAt (mainNext fee m i).exchange.orderbook m.exchange.orderbook.length = some o.orderId := by
  obtain ⟨ts, hs, _⟩ := next_new fee hS h
  refine (sweep_inv (I := fun e => ∃ tr', e.traders[t]? = some tr' ∧
    tr'.orders[tr.orderCount]? = some m.exchange.orderbook.length ∧
    idAt e.orderbook m.exchange.orderbook.length = some o.orderId)
    (fun e side r b o best _ hI hM => ?_) hs (sound_enter hS (entryOf_new h).toFresh) ?_).2
  · obtain ⟨tr', ht', ho, hid⟩ := hI
    have hlt : t < (applyMatch fee e side r b o best).traders.length := by
      rw [applyMatch_traders_length]
      exact (List.getElem?_eq_some_iff.mp ht').1
    obtain ⟨t₀, ht₀, hs₀⟩ := steady_settle (List.getElem?_eq_getElem hlt)
    rw [ht'] at ht₀
    cases ht₀
    exact ⟨_, List.getElem?_eq_getElem hlt, by rw [hs₀.orders]; exact ho,
      idAt_grows (grows_match fee hM) hid⟩
  · refine ⟨traderAddOrder tr m.exchange.orderbook.length, ?_, ?_, idAt_new o⟩
    · show (m.exchange.traders.modify t _)[t]? = _
      rw [List.getElem?_modify_eq, ht]
      rfl
    · show (tr.orders ++ [_])[tr.orders.length]? = _
      rw [List.getElem?_concat_length]

/-- **One step keeps the numbering exactly if it accepts no order with another id.** -/
theorem idsInOrder_iff (fee : Int → Int) {m : Main} {i : Input} (hS : Sound m.exchange)
    (hI : IdsInOrder m.exchange) : IdsInOrder (mainNext fee m i).exchange ↔ EntersNext m i := by
  refine ⟨fun h => ?_, idsInOrder_next fee hS hI⟩
  unfold EntersNext
  split
  · rename_i t o he
    intro tr ht
    obtain ⟨tr', ht', hr, hid⟩ := new_entry_stays fee hS he ht
    have hid' := h t tr.orderCount _ tr' ht' hr
    rw [hid] at hid'
    exact Option.some.inj hid'
  · trivial

theorem lists_init (products : List Word) (pids : List Nat) (argv : List Word) {t : Nat}
    {tr : Trader} (h : (mainInit products pids argv).exchange.traders[t]? = some tr) :
    tr.orders = [] := by
  simp only [mainInit, List.getElem?_map] at h
  obtain ⟨pid, _, rfl⟩ := Option.map_eq_some_iff.mp h
  rfl

theorem idsInOrder_init (products : List Word) (pids : List Nat) (argv : List Word) :
    IdsInOrder (mainInit products pids argv).exchange := by
  intro t i r tr ht hr
  rw [lists_init products pids argv ht] at hr
  cases hr

/-! ## 3. The newest order of an id -/

/-- Of the orders of a trader with id `i`, the entry `i` points to the last one, and the others
    are closed. -/
def Newest (e : Exchange) : Prop :=
  ∀ (t i r : Nat) (tr : Trader), e.traders[t]? = some tr → tr.orders[i]? = some r →
    ∀ (k : Nat) (x : Order), e.orderbook[k]? = some x → x.trader = t → x.orderId = i →
      k ≤ r ∧ (k ≠ r → x.completed = true)

structure Numbered (e : Exchange) : Prop where
  ids : IdsInOrder e
  newest : Newest e

section Changes

variable {fee : Int → Int} {e e' : Exchange}

theorem newest_of_lists (hN : Newest e) (hg : Grows e.orderbook e'.orderbook)
    (hlen : e'.orderbook.length = e.orderbook.length) (hl : SameLists e e') : Newest e' := by
  intro t i r tr ht hr k x hx hxt hxi
  obtain ⟨tr₀, ht₀, ho⟩ := hl t tr ht
  obtain ⟨x₀, hx₀, he⟩ := hg.back hlen hx
  obtain ⟨hle, hc⟩ := hN t i r tr₀ ht₀ (ho ▸ hr) k x₀ hx₀ (he.trader ▸ hxt) (he.orderId ▸ hxi)
  refine ⟨hle, fun hne => ?_⟩
  have hx₀c := hc hne
  rw [he.frozen hx₀c]
  exact hx₀c

/-- An id in the book is the number of an entry of its trader. -/
theorem Numbered.entry (hS : Sound e) (hI : IdsInOrder e) {k : Nat} {o : Order} {tr : Trader}
    (hk : e.orderbook[k]? = some o) (ht : e.traders[o.trader]? = some tr) :
    ∃ i r : Nat, tr.orders[i]? = some r ∧ o.orderId = i := by
  obtain ⟨r, hr, hid⟩ := hS.listed k o tr hk ht
  obtain ⟨i, hi⟩ := List.mem_iff_getElem?.mp hr
  have h := hI o.trader i r tr ht hi
  rw [hid] at h
  exact ⟨i, r, hi, Option.some.inj h⟩

theorem newest_enter {t : Nat} {o : Order} (hS : Sound e) (hN : Numbered e) (hF : Fresh e t o)
    (hnext : ∀ tr, e.traders[t]? = some tr → o.orderId = tr.orderCount) :
    Newest (enterOrder e t o) := by
  intro s i r tr hs hr k x hx hxs hxi
  obtain ⟨tr₀, hs₀, hcase⟩ := getElem?_modify_of hs
  rcases getElem?_snoc hx with hx | ⟨rfl, rfl⟩
  · -- an older order: its id is an entry of before
    obtain ⟨j, r', hj, hxj⟩ := Numbered.entry hS hN.ids hx (hxs ▸ hs₀)
    have hij : j = i := by omega
    have hr₀ : tr₀.orders[i]? = some r := by
      rcases hcase with ⟨_, rfl⟩ | ⟨_, rfl⟩
      · exact hr
      · have hlt := (List.getElem?_eq_some_iff.mp hj).1
        have hr' : (tr₀.orders ++ [e.orderbook.length])[i]? = some r := hr
        rwa [List.getElem?_append_left (by omega)] at hr'
    exact hN.newest s i r tr₀ hs₀ hr₀ k x hx hxs hxi
  · -- the new order: the entry is its own
    have hts : s = t := hxs.symm.trans hF.owner
    subst hts
    rcases hcase with ⟨hne, _⟩ | ⟨_, rfl⟩
    · exact absurd rfl hne
    · have hcount := hnext tr₀ hs₀
      have hi : i = tr₀.orders.length := by
        have h : o.orderId = (i : Int) := hxi
        have h' : o.orderId = (tr₀.orders.length : Int) := hcount
        omega
      subst hi
      have hr' : (tr₀.orders ++ [e.orderbook.length])[tr₀.orders.length]? = some r := hr
      rw [List.getElem?_concat_length] at hr'
      cases hr'
      exact ⟨Nat.le_refl _, fun hne => absurd rfl hne⟩

theorem newest_replace {t k₀ : Nat} {o old : Order} (hN : Numbered e)
    (h : AmendEntry e t k₀ o old) : Newest (replaceOrder e t k₀ o) := by
  intro s i r tr hs hr k x hx hxs hxi
  obtain ⟨tr₀, r₀, hs₀, hr₀, hcase⟩ := replaceOrder_entry hs hr
  have hid := hN.ids s i r₀ tr₀ hs₀ hr₀
  have hid' : idAt (marketAddOrder e o).orderbook r₀ = some (i : Int) :=
    idAt_grows (grows_append _ _) hid
  obtain ⟨x₁, hx₁, hx₁'⟩ := getElem?_modify_of (f := closeOrder) hx
  rcases getElem?_snoc hx₁ with hx₀ | ⟨rfl, rfl⟩
  · -- an older order
    have hkey : x₁.trader = s ∧ x₁.orderId = i := by
      rcases hx₁' with ⟨_, rfl⟩ | ⟨_, rfl⟩
      · exact ⟨hxs, hxi⟩
      · exact ⟨hxs, hxi⟩
    obtain ⟨hle, hc⟩ := hN.newest s i r₀ tr₀ hs₀ hr₀ k x₁ hx₀ hkey.1 hkey.2
    have hclosed : k ≠ r₀ → x.completed = true := by
      intro hne
      rcases hx₁' with ⟨_, rfl⟩ | ⟨_, rfl⟩
      · exact hc hne
      · rfl
    rcases hcase with ⟨rfl, _⟩ | ⟨rfl, rfl, hsame⟩
    · exact ⟨hle, hclosed⟩
    · have hklt := (List.getElem?_eq_some_iff.mp hx₀).1
      refine ⟨by omega, fun _ => ?_⟩
      by_cases hkr : k = r₀
      · -- the order the entry pointed to is the one replaced: no other is open
        rcases hx₁' with ⟨hne, rfl⟩ | ⟨_, rfl⟩
        · have hoi : o.orderId = i := by
            rw [hid'] at hsame
            exact (Option.some.inj hsame).symm
          have hold := (hN.newest t i r₀ tr₀ hs₀ hr₀ k₀ old h.place h.oldOwner
            (by rw [← h.sameId, hoi])).2 (by omega)
          rw [h.oldOpen] at hold
          cases hold
        · rfl
      · exact hclosed hkr
  · -- the new order
    have hk₀ := (List.getElem?_eq_some_iff.mp h.place).1
    rcases hx₁' with ⟨_, rfl⟩ | ⟨heq, _⟩
    · have hts : t = s := h.owner.symm.trans hxs
      have hoi : o.orderId = i := hxi
      rcases hcase with ⟨_, hnot⟩ | ⟨_, rfl, _⟩
      · exact absurd (by rw [hid', hoi]) (hnot hts)
      · exact ⟨Nat.le_refl _, fun hne => absurd rfl hne⟩
    · omega

end Changes

theorem numbered_next (fee : Int → Int) {m : Main} {i : Input} (hS : Sound m.exchange)
    (hN : Numbered m.exchange) (hnext : EntersNext m i) : Numbered (mainNext fee m i).exchange := by
  refine (mainNext_inv (I := Numbered) (fun e side r b o best _ hN hM =>
    ⟨idsInOrder_of_lists hN.ids (grows_match fee hM) sameLists_match,
      newest_of_lists hN.newest (grows_match fee hM) applyMatch_book_length sameLists_match⟩)
    hS ?_ ?_ ?_ ?_ ?_).2
  · intro t o h hnew
    have hid : ∀ tr, m.exchange.traders[t]? = some tr → o.orderId = tr.orderCount :=
      fun _ ht => hnext.eq h ht
    exact ⟨idsInOrder_enter hN.ids hid, newest_enter hS hN hnew.toFresh hid⟩
  · exact fun t k o old _ hold => ⟨idsInOrder_replace hN.ids hold, newest_replace hN hold⟩
  · exact fun _ => hN
  · intro r o _ hr ho
    have hl : SameLists m.exchange (m.exchange.onOrder r closeOrder) := fun k t' ht' => ⟨t', ht', rfl⟩
    exact ⟨idsInOrder_of_lists hN.ids (grows_close hr ho) hl,
      newest_of_lists hN.newest (grows_close hr ho) (List.length_modify _ _ _) hl⟩
  · intro pid _
    exact ⟨idsInOrder_of_lists hN.ids (Grows.refl _) (sameLists_mark pid),
      newest_of_lists hN.newest (Grows.refl _) rfl (sameLists_mark pid)⟩

theorem numbered_init (products : List Word) (pids : List Nat) (argv : List Word) :
    Numbered (mainInit products pids argv).exchange := by
  refine ⟨idsInOrder_init products pids argv, fun t i r tr ht hr => ?_⟩
  rw [lists_init products pids argv ht] at hr
  cases hr

/-- The states of a run that numbers its orders. -/
theorem numbered_run (fee : Int → Int) (products : List Word) (pids : List Nat) (argv : List Word)
    (is : List Input) (h : AllSteps (mainNext fee) EntersNext (mainInit products pids argv) is) :
    MainOk (mainRun fee products pids argv is) ∧
      Numbered (mainRun fee products pids argv is).exchange :=
  run_inv_of_allSteps (I := fun m => MainOk m ∧ Numbered m.exchange)
    (fun _ i hm hi => ⟨mainOk_next fee hm.1 i, numbered_next fee hm.1.sound hm.2 hi⟩) is
    ⟨mainOk_init products pids argv, numbered_init products pids argv⟩ h

/-- An open order is the entry of its id, and the only open order of its trader with the id. -/
theorem Numbered.open_entry {e : Exchange} (hS : Sound e) (hN : Numbered e) {k : Nat} {o : Order}
    {tr : Trader} (hk : e.orderbook[k]? = some o) (ho : o.completed = false)
    (ht : e.traders[o.trader]? = some tr) : ∃ i : Nat, tr.orders[i]? = some k ∧ o.orderId = i := by
  obtain ⟨i, r, hr, hid⟩ := Numbered.entry hS hN.ids hk ht
  have hkr : k = r := by
    by_contra hne
    have hc := (hN.newest o.trader i r tr ht hr k o hk rfl hid).2 hne
    rw [ho] at hc
    cases hc
  exact ⟨i, hkr ▸ hr, hid⟩

/-- No two open orders of a trader share an id. -/
theorem Numbered.open_unique {e : Exchange} (hS : Sound e) (hN : Numbered e) {j k : Nat}
    {a b : Order} (ha : e.orderbook[j]? = some a) (hb : e.orderbook[k]? = some b)
    (hoa : a.completed = false) (hob : b.completed = false) (ht : a.trader = b.trader)
    (hid : a.orderId = b.orderId) : j = k := by
  have htr := List.getElem?_eq_getElem (hS.owner j a ha)
  obtain ⟨i, hi, hai⟩ := hN.open_entry hS ha hoa htr
  obtain ⟨i', hi', hbi⟩ := hN.open_entry hS hb hob (by rw [← ht]; exact htr)
  have hii : i = i' := by omega
  subst hii
  exact Option.some.inj (hi.symm.trans hi')

theorem Numbered.getOrder_eq {e : Exchange} (hN : Numbered e) {t i r : Nat} {tr : Trader}
    (ht : e.traders[t]? = some tr) (hr : tr.orders[i]? = some r) :
    getOrder e.orderbook tr i = some r := by
  unfold getOrder
  have hlt := (List.getElem?_eq_some_iff.mp hr).1
  have hpred : decide (idAt e.orderbook r = some (i : Int)) = true :=
    decide_eq_true (hN.ids t i r tr ht hr)
  cases hf : tr.orders.find? fun r => decide (idAt e.orderbook r = some (i : Int)) with
  | none =>
      have h := List.find?_eq_none.mp hf r (List.mem_of_getElem? hr)
      exact absurd hpred h
  | some s =>
      -- an entry with the id `i` has the number `i`
      obtain ⟨j, hj⟩ := List.mem_iff_getElem?.mp (List.mem_of_find?_eq_some hf)
      have hs := List.find?_some hf
      simp only [decide_eq_true_eq] at hs
      rw [hN.ids t j s tr ht hj] at hs
      have hji : j = i := Int.ofNat.inj (Option.some.inj hs)
      rw [hji, hr] at hj
      exact hj.symm

/-- **The market book and the traders' lists agree**, in every state of a run that numbers its
    orders: the entry `i` of a list is the trader's order with id `i` and the largest index, the
    others with that id are closed; the open orders of a trader are the open entries of its list,
    each once; and `getOrder` finds each of them by its id. -/
theorem lists_agree (fee : Int → Int) (products : List Word) (pids : List Nat) (argv : List Word)
    (is : List Input) (h : AllSteps (mainNext fee) EntersNext (mainInit products pids argv) is) :
    let e := (mainRun fee products pids argv is).exchange
    ∀ (t : Nat) (tr : Trader), e.traders[t]? = some tr →
      (∀ i r : Nat, tr.orders[i]? = some r → ∃ o, e.orderbook[r]? = some o ∧ o.trader = t ∧
        o.orderId = i ∧ ∀ (k : Nat) (x : Order), e.orderbook[k]? = some x → x.trader = t →
          x.orderId = i → x.orderIndex ≤ o.orderIndex ∧ (k ≠ r → x.completed = true)) ∧
      tr.orders.Nodup ∧
      (∀ (k : Nat) (o : Order), e.orderbook[k]? = some o → o.completed = false →
        (o.trader = t ↔ k ∈ tr.orders)) ∧
      ∀ (k : Nat) (o : Order), e.orderbook[k]? = some o → o.completed = false → o.trader = t →
        getOrder e.orderbook tr o.orderId = some k := by
  obtain ⟨hok, hN⟩ := numbered_run fee products pids argv is h
  intro e t tr ht
  refine ⟨fun i r hr => ?_, ?_, fun k o hk ho => ⟨fun hto => ?_, fun hmem => ?_⟩,
    fun k o hk ho hto => ?_⟩
  · obtain ⟨o, ho, hot⟩ := hok.sound.entries t tr r ht (List.mem_of_getElem? hr)
    have hid := hN.ids t i r tr ht hr
    rw [idAt, ho] at hid
    refine ⟨o, ho, hot, Option.some.inj hid, fun k x hx hxt hxi => ?_⟩
    obtain ⟨hle, hc⟩ := hN.newest t i r tr ht hr k x hx hxt hxi
    refine ⟨?_, hc⟩
    rw [hok.sound.index k x hx, hok.sound.index r o ho]
    exact Int.ofNat_le.mpr hle
  · refine List.nodup_iff_getElem?_ne_getElem?.mpr fun i j hij hj heq => ?_
    have hj' := List.getElem?_eq_getElem hj
    have h1 := hN.ids t j _ tr ht hj'
    have h2 := hN.ids t i _ tr ht (heq.trans hj')
    rw [h1] at h2
    have := Int.ofNat.inj (Option.some.inj h2)
    omega
  · obtain ⟨i, hi, _⟩ := hN.open_entry hok.sound hk ho (hto ▸ ht)
    exact List.mem_of_getElem? hi
  · obtain ⟨o', ho', hot⟩ := hok.sound.entries t tr k ht hmem
    rw [hk] at ho'
    cases ho'
    exact hot
  · obtain ⟨i, hi, hid⟩ := hN.open_entry hok.sound hk ho (hto ▸ ht)
    rw [hid]
    exact hN.getOrder_eq ht hi

/-- A run with an amended order: its two versions are in the book, the list has the newer one. -/
theorem lists_agree_amended :
    let is := [Input.command 10 "SELL 0 GPU 4 100;".toList, .command 10 "AMEND 0 5 90;".toList]
    AllSteps (mainNext (· / 100)) EntersNext
      (mainInit ["GPU".toList] [10, 11] (List.replicate 6 [])) is ∧
    ∀ tr : Trader, (mainRun (· / 100) ["GPU".toList] [10, 11] (List.replicate 6 [])
      is).exchange.traders[0]? = some tr → tr.orders.Nodup := by
  intro is
  have h : AllSteps (mainNext (· / 100)) EntersNext
      (mainInit ["GPU".toList] [10, 11] (List.replicate 6 [])) is := by decide +kernel
  exact ⟨h, fun tr ht => ((lists_agree _ _ _ _ is h) 0 tr ht).2.1⟩

/-! ## 4. Cancelling -/

def cancelCommand (orderId : Int) : List Char := "CANCEL ".toList ++ itoa orderId ++ [';']

/-- `read_message` on a CANCEL command. -/
theorem readMessage_cancel {argv : List Word} (products : List Word) (hl : 2 ≤ argv.length)
    (i : Nat) :
    readMessage (cutAt ';' (cancelCommand i)) argv products =
      (.CANCEL_REQUEST, ["CANCEL".toList, itoa i] ++ argv.drop 2) := by
  have hw : ∀ w ∈ ["CANCEL".toList, itoa i], Plain w := by
    intro w hw
    rcases List.mem_cons.mp hw with rfl | hw
    · exact ⟨⟨by decide, by decide⟩, by decide, by decide⟩
    · rw [List.mem_singleton.mp hw]
      exact plain_itoa i
  have hsplit := splitMessage_sent hw (List.cons_ne_nil _ _) (by simp) hl
  have htext : cancelCommand i = unwords ' ' ["CANCEL".toList, itoa i] ++ [';'] := rfl
  unfold readMessage
  rw [htext, hsplit]
  rfl

theorem findTrader_eq {e : Exchange} {t : Nat} {tr : Trader}
    (hnd : (e.traders.map (·.traderPid)).Nodup) (ht : e.traders[t]? = some tr) :
    findTrader e.traders tr.traderPid = some t := by
  unfold findTrader
  obtain ⟨hlt, hget⟩ := List.getElem?_eq_some_iff.mp ht
  refine List.findIdx?_eq_some_iff_getElem.mpr ⟨hlt, by simp [hget], fun j hj => ?_⟩
  have hne := List.nodup_iff_getElem?_ne_getElem?.mp hnd j t hj (by rw [List.length_map]; exact hlt)
  intro hc
  refine hne ?_
  have hjl : j < e.traders.length := by omega
  rw [List.getElem?_map, List.getElem?_map, List.getElem?_eq_getElem hjl, ht]
  exact congrArg some (of_decide_eq_true hc)

/-- The owner of an open order closes it with CANCEL. -/
theorem cancel_closes (fee : Int → Int) {m : Main} (hS : Sound m.exchange)
    (hN : Numbered m.exchange) (hids : ∀ (k : Nat) (o : Order), m.exchange.orderbook[k]? = some o →
      o.orderId < 2 ^ 31) (hnd : (m.exchange.traders.map (·.traderPid)).Nodup)
    (hargv : m.marketArgv.length = commandArgc) (hrun : m.exchangeDisconnect = false) {k : Nat}
    {o : Order} {tr : Trader} (hk : m.exchange.orderbook[k]? = some o) (ho : o.completed = false)
    (ht : m.exchange.traders[o.trader]? = some tr) (hconn : tr.disconnected = false) :
    (mainNext fee m (.command tr.traderPid (cancelCommand o.orderId))).exchange =
      m.exchange.onOrder k closeOrder := by
  obtain ⟨i, hi, hid⟩ := hN.open_entry hS hk ho ht
  have hsmall : i < 2 ^ 31 := by
    have := hids k o hk
    omega
  have hmsg : messageOf tr (cancelCommand i) = cutAt ';' (cancelCommand i) := by
    unfold messageOf
    rw [hconn]
    rfl
  have hread := readMessage_cancel m.exchange.products
    (by rw [hargv]; decide : 2 ≤ m.marketArgv.length) i
  have hnum : isNumeric (itoa i) = true := List.all_eq_true.mpr (itoa_digits i)
  unfold mainNext mainStep
  rw [hid]
  simp only [hrun, Bool.false_eq_true, if_false, findTrader_eq hnd ht, ht]
  rw [handleMessage_cancel (by rw [hmsg]; exact hread)]
  have harg : argAt (["CANCEL".toList, itoa i] ++ m.marketArgv.drop 2) 1 = itoa i := rfl
  unfold cancelRequest
  simp only [harg, hnum, Bool.not_true, Bool.false_eq_true, if_false, atoi_itoa hsmall,
    hN.getOrder_eq ht hi, hk, ho]

theorem idsSmall_next (fee : Int → Int) {m : Main} (hS : Sound m.exchange)
    (hids : ∀ (k : Nat) (o : Order), m.exchange.orderbook[k]? = some o → o.orderId < 2 ^ 31)
    (i : Input) : ∀ (k : Nat) (o : Order),
      (mainNext fee m i).exchange.orderbook[k]? = some o → o.orderId < 2 ^ 31 := by
  refine book_next fee (fun he h => by rw [he.orderId]; exact h) hS hids
    (fun t o h => (entryOf_new h).isInt) (fun t k o h => ?_)
  obtain ⟨old, hold⟩ := entryOf_amended hS.toBookOk h
  show o.orderId < _
  rw [hold.sameId]
  exact hids k old hold.place

theorem idsSmall_run (fee : Int → Int) (products : List Word) (pids : List Nat) (argv : List Word)
    (is : List Input) : ∀ (k : Nat) (o : Order),
      (mainRun fee products pids argv is).exchange.orderbook[k]? = some o → o.orderId < 2 ^ 31 :=
  reachable_inv (I := fun m => ∀ (k : Nat) (o : Order), m.exchange.orderbook[k]? = some o →
      o.orderId < 2 ^ 31) (fun k o ho => by cases ho)
    (fun _ i hok h => idsSmall_next fee hok.sound h i) is

/-- **The exchange keeps its numbering exactly in the runs that number their orders**: in every
    state of a run `trader->orders[i]->order_id = i` holds throughout if and only if each accepted
    new order carried its sender's `order_count`. In such a run no two open orders of a trader
    share an id, and a CANCEL with the id of an open order, from its (connected) owner, closes
    that order. -/
theorem idsInOrder_run (fee : Int → Int) (products : List Word) (pids : List Nat)
    (hpids : pids.Nodup) (argv : List Word) (hargv : argv.length = commandArgc) (is : List Input) :
    (Always (mainNext fee) (fun m => IdsInOrder m.exchange) (mainInit products pids argv) is ↔
      AllSteps (mainNext fee) EntersNext (mainInit products pids argv) is) ∧
    (AllSteps (mainNext fee) EntersNext (mainInit products pids argv) is →
      let m := mainRun fee products pids argv is
      (∀ (j k : Nat) (a b : Order), m.exchange.orderbook[j]? = some a →
        m.exchange.orderbook[k]? = some b → a.completed = false → b.completed = false →
        a.trader = b.trader → a.orderId = b.orderId → j = k) ∧
      ∀ (k : Nat) (o : Order) (tr : Trader), m.exchange.orderbook[k]? = some o →
        o.completed = false → m.exchange.traders[o.trader]? = some tr → tr.disconnected = false →
        m.exchangeDisconnect = false →
        (mainNext fee m (.command tr.traderPid (cancelCommand o.orderId))).exchange =
          m.exchange.onOrder k closeOrder) := by
  refine ⟨?_, fun h => ?_⟩
  · refine always_iff_allSteps (I := MainOk) (N := fun _ _ => True)
      (fun m i hm _ => mainOk_next fee hm i) (fun m i hm _ hI => idsInOrder_iff fee hm.sound hI) is
      (mainOk_init products pids argv) (idsInOrder_init products pids argv) ?_
    exact allSteps_of_forall (fun _ _ => trivial) is
  · intro m
    obtain ⟨hok, hN⟩ := numbered_run fee products pids argv is h
    have hnd : (m.exchange.traders.map (·.traderPid)).Nodup := by
      rw [pids_run fee products pids argv is]
      exact hpids
    exact ⟨fun j k a b ha hb hoa hob ht hid => hN.open_unique hok.sound ha hb hoa hob ht hid,
      fun k o tr hk ho ht hconn hrun =>
        cancel_closes fee hok.sound hN (idsSmall_run fee products pids argv is) hnd
          (argv_run fee products pids hargv is) hrun hk ho ht hconn⟩

/-- Two orders numbered 0 and 1. -/
theorem idsInOrder_run_numbered :
    Always (mainNext (· / 100)) (fun m => IdsInOrder m.exchange)
      (mainInit ["GPU".toList] [10, 11] (List.replicate 6 []))
      [.command 10 "SELL 0 GPU 4 100;".toList, .command 10 "BUY 1 GPU 4 90;".toList] :=
  (idsInOrder_run (· / 100) ["GPU".toList] [10, 11] (by decide) (List.replicate 6 []) rfl _).1.mpr
    (by decide +kernel)

/-- The id 0 is accepted twice: the entry 1 of the list has the id 0, and both orders are open. -/
theorem idsInOrder_reused :
    let e := (mainRun (· / 100) ["GPU".toList] [10, 11] (List.replicate 6 [])
      [.command 10 "SELL 0 GPU 4 100;".toList, .command 10 "SELL 0 GPU 4 100;".toList]).exchange
    ¬ IdsInOrder e ∧ e.orderbook.map (fun o => (o.trader, o.orderId, o.completed)) =
      [(0, 0, false), (0, 0, false)] := by
  intro e
  have hlist : e.traders[0]?.map (·.orders) = some [0, 1] := by decide +kernel
  have hid : idAt e.orderbook 1 = some 0 := by decide +kernel
  refine ⟨fun h => ?_, by decide +kernel⟩
  obtain ⟨tr, htr, ho⟩ := Option.map_eq_some_iff.mp hlist
  have h1 := h 0 1 1 tr htr (by rw [ho]; rfl)
  rw [hid] at h1
  cases h1

end SysProg.Pe
