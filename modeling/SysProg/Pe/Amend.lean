/-
  File:      SysProg/Pe/Amend.lean
  Subject:   AMEND AND CANCEL: do they reach the same orders?

  CANCEL asks the trader's list, which has the newest version of an order.
  `amend` walks through the book from the oldest order on and stops at the
  first one with the id; after a first AMEND that is the version it closed.

  * `amendSearch_isSome_iff` -- `amend` succeeds exactly if the oldest order
    of the trader with the id is open;
  * `cancelled_iff` -- CANCEL succeeds exactly if one of them is;
  * `amend_iff_cancel` -- so the two agree exactly as long as the open order
    was never amended (and its id is read as it was written).
-/
import SysProg.Pe.Grammar
import SysProg.Pe.Numbering
import SysProg.Pe.Verdict

namespace SysProg.Pe

open Lib

/-! ## 1. Commands as words -/

/-- A command of these words. -/
def commandText (ws : List Word) : List Char := unwords ' ' ws ++ [';']

def amendWords (id quantity price : Word) : List Word := ["AMEND".toList, id, quantity, price]

def cancelWords (id : Word) : List Word := ["CANCEL".toList, id]

/-- A number that is admitted as a quantity or a price. -/
def Admitted (w : Word) : Prop := IsNumber w ∧ 1 ≤ digitsVal w ∧ digitsVal w ≤ 999999

theorem Admitted.atoi_eq {w : Word} (h : Admitted w) : atoi w = digitsVal w :=
  (atoi_eq_iff h.1.digits).mpr (by have := h.2.2; omega)

/-- The trader has an open order with the id. -/
def HasOpen (e : Exchange) (t : Nat) (id : Int) : Prop :=
  ∃ (k : Nat) (o : Order), e.orderbook[k]? = some o ∧ o.completed = false ∧ o.trader = t ∧
    o.orderId = id

/-- The oldest order of the trader with the id is open. -/
def OldestOpen (e : Exchange) (t : Nat) (id : Int) : Prop :=
  ∃ (k : Nat) (o : Order), e.orderbook[k]? = some o ∧ o.completed = false ∧ o.trader = t ∧
    o.orderId = id ∧ ∀ (j : Nat) (x : Order), j < k → e.orderbook[j]? = some x → x.trader = t →
      x.orderId ≠ id

/-! ## 2. What `amend` finds -/

/-- The loop of `amend` comes to the oldest order with the id. -/
theorem amendLoop_isSome {argv : List Word} {t : Nat} {tr : Trader} :
    ∀ {l : List Order} {i k : Nat} {o : Order}, l[k]? = some o → o.completed = false →
      o.trader = t → o.orderId = atoi (argAt argv 1) →
      (∀ (j : Nat) (x : Order), j < k → l[j]? = some x → x.trader = t →
        x.orderId ≠ atoi (argAt argv 1)) →
      (newOrder [typeText o.orderType, argAt argv 1, o.item, argAt argv 2, argAt argv 3] t tr
        (some o.orderType)).isSome = true →
      (amendLoop argv t tr l i).isSome = true
  | [], _, _, _, hk, _, _, _, _, _ => by cases hk
  | y :: l, i, 0, o, hk, hc, ht, hid, _, hnew => by
      obtain rfl : y = o := Option.some.inj hk
      obtain ⟨order, hnew⟩ := Option.isSome_iff_exists.mp hnew
      unfold amendLoop
      rw [if_pos ⟨hid, ht⟩, hc]
      simp only [Bool.false_eq_true, if_false, hnew, Option.isSome_some]
  | y :: l, i, k + 1, o, hk, hc, ht, hid, hfirst, hnew => by
      have hskip : ¬ (y.orderId = atoi (argAt argv 1) ∧ y.trader = t) :=
        fun h => hfirst 0 y (Nat.succ_pos k) rfl h.2 h.1
      unfold amendLoop
      rw [if_neg hskip]
      exact amendLoop_isSome (l := l) hk hc ht hid
        (fun j x hj hx => hfirst (j + 1) x (Nat.succ_lt_succ hj) hx) hnew

section Search

variable {e : Exchange} {t : Nat} {tr : Trader} {argv : List Word}

/-- In a numbered exchange the id of an order is below the `order_count` of its trader. -/
theorem Numbered.orderId_lt (hS : Sound e) (hN : Numbered e) {k : Nat} {o : Order}
    (ht : e.traders[t]? = some tr) (hk : e.orderbook[k]? = some o) (ho : o.trader = t) :
    o.orderId < tr.orderCount := by
  subst ho
  obtain ⟨i, r, hr, hid⟩ := Numbered.entry hS hN.ids hk ht
  have hlt : i < tr.orders.length := (List.getElem?_eq_some_iff.mp hr).1
  rw [hid]
  exact Int.ofNat_lt.mpr hlt

/-- **`amend` succeeds exactly if the oldest order with the id is open.** -/
theorem amendSearch_isSome_iff (hS : Sound e) (hN : Numbered e) (ht : e.traders[t]? = some tr)
    (hid : IsNumber (argAt argv 1)) (hq : Admitted (argAt argv 2)) (hp : Admitted (argAt argv 3)) :
    (amendSearch argv e t tr).isSome = true ↔ OldestOpen e t (atoi (argAt argv 1)) := by
  refine ⟨fun h => ?_, ?_⟩
  · obtain ⟨⟨k, o⟩, hfound⟩ := Option.isSome_iff_exists.mp h
    obtain ⟨hoid, old, hold⟩ := amendSearch_spec hS.toBookOk ht hfound
    refine ⟨k, old, hold.place, hold.oldOpen, hold.oldOwner, ?_, fun j x hj hx hxt => ?_⟩
    · rw [← hold.sameId, hoid]
    · rw [← hoid]
      exact hold.first j x hj hx hxt
  · intro h
    obtain ⟨k, o, hk, hc, hot, hoid, hfirst⟩ := h
    obtain ⟨hqn, hq1, hq2⟩ := hq
    obtain ⟨hpn, hp1, hp2⟩ := hp
    have hqa := Admitted.atoi_eq ⟨hqn, hq1, hq2⟩
    have hpa := Admitted.atoi_eq ⟨hpn, hp1, hp2⟩
    have hcount := hN.orderId_lt hS ht hk hot
    have hnew : (newOrder [typeText o.orderType, argAt argv 1, o.item, argAt argv 2, argAt argv 3] t
        tr (some o.orderType)).isSome = true := by
      refine Option.isSome_iff_exists.mpr ⟨_, newOrder_eq_some.mpr ⟨o.orderType, rfl, hid.2, hqn.2,
        hpn.2, ?_, ?_, ?_, ?_, ?_, rfl⟩⟩
      · show atoi (argAt argv 1) ≤ _
        omega
      · show 1 ≤ atoi (argAt argv 2)
        omega
      · show atoi (argAt argv 2) ≤ maxQuantity
        unfold maxQuantity
        omega
      · show 1 ≤ atoi (argAt argv 3)
        omega
      · show atoi (argAt argv 3) ≤ maxUnitPrice
        unfold maxUnitPrice
        omega
    unfold amendSearch
    simp only [hid.2, hqn.2, hpn.2, Bool.not_true, Bool.or_self, Bool.false_eq_true, if_false]
    rw [if_neg (by unfold maxQuantity; omega), if_neg (by unfold maxUnitPrice; omega)]
    exact amendLoop_isSome hk hc hot hoid hfirst hnew

end Search

/-! ## 3. The two commands -/

section Commands

variable {m : Main} {pid t : Nat} {tr : Trader} {fee : Int → Int}

/-- A connected trader is heard. -/
structure Heard (m : Main) (pid t : Nat) (tr : Trader) : Prop where
  running : m.exchangeDisconnect = false
  sender : findTrader m.exchange.traders pid = some t
  trader : m.exchange.traders[t]? = some tr
  connected : tr.disconnected = false
  argv : m.marketArgv.length = commandArgc

theorem Heard.step (h : Heard m pid t tr) (text : List Char) :
    mainStep fee m (.command pid text) = handleMessage fee m t pid tr text := by
  simp only [mainStep, h.running, Bool.false_eq_true, if_false, h.sender, h.trader]

/-- A command of plain words is read as what it is. -/
theorem Heard.read (h : Heard m pid t tr) {st : MessageState} {ws : List Word}
    (hw : ∀ w ∈ ws, Plain w) (hr : Reads m.exchange.products (unwords ' ' ws) st ws) :
    readMessage (messageOf tr (commandText ws)) m.marketArgv m.exchange.products =
      (st, ws ++ m.marketArgv.drop ws.length) := by
  have hmsg : messageOf tr (commandText ws) = unwords ' ' ws := by
    unfold messageOf commandText
    rw [h.connected, cutAt_unwords hw]
    rfl
  rw [hmsg]
  exact readMessage_of_reads hr (by rw [h.argv]; decide)

/-- The AMEND branch answers AMENDED exactly if `amend` succeeds. -/
theorem amendRequest_answer (hS : Sound m.exchange) (ht : m.exchange.traders[t]? = some tr)
    (argv : List Word) :
    verdicts t (amendRequest fee m argv t pid tr).2 = [.AMENDED] ↔
      (amendSearch argv m.exchange t tr).isSome = true := by
  cases hs : amendSearch argv m.exchange t tr with
  | none =>
      have hinv : verdicts t (amendRequest fee m argv t pid tr).2 = [.INVALID] := by
        simp only [amendRequest, amend, hs, Option.map_none]
        exact verdicts_notify rfl
      rw [hinv]
      exact iff_of_false (by decide) (by decide)
  | some found =>
      obtain ⟨_, old, hold⟩ := amendSearch_spec hS.toBookOk ht hs
      refine iff_of_true ?_ rfl
      rw [amendRequest_some hS ht hold hs]
      exact verdicts_branch (verdictOf_amended _) fun x hx => write_loop _ hx

/-- The CANCEL branch answers CANCELLED exactly if `getOrder` finds an open order. -/
theorem cancelRequest_answer (argv : List Word) (hid : isNumeric (argAt argv 1) = true) :
    verdicts t (cancelRequest m argv t pid tr).2 = [.CANCELLED] ↔
      ∃ (r : Nat) (o : Order), getOrder m.exchange.orderbook tr (atoi (argAt argv 1)) = some r ∧
        m.exchange.orderbook[r]? = some o ∧ o.completed = false := by
  have hinv : ∀ m' : Main, verdicts t (m', notify t pid invalidText).2 ≠ [.CANCELLED] := by
    intro m'
    rw [verdicts_notify (v := .INVALID) rfl]
    decide
  unfold cancelRequest
  rw [hid]
  simp only [Bool.not_true, Bool.false_eq_true, if_false]
  cases hg : getOrder m.exchange.orderbook tr (atoi (argAt argv 1)) with
  | none =>
      refine iff_of_false (hinv _) ?_
      intro h
      obtain ⟨r, o, hr, -⟩ := h
      cases hr
  | some r =>
      simp only
      cases ho : m.exchange.orderbook[r]? with
      | none =>
          refine iff_of_false (hinv _) ?_
          intro h
          obtain ⟨r', o, hr, ho', -⟩ := h
          cases hr
          rw [ho] at ho'
          cases ho'
      | some o =>
          simp only
          cases hc : o.completed with
          | true =>
              refine iff_of_false (hinv _) ?_
              intro h
              obtain ⟨r', o', hr, ho', hc'⟩ := h
              cases hr
              rw [ho] at ho'
              cases ho'
              rw [hc] at hc'
              cases hc'
          | false =>
              refine iff_of_true ?_ ⟨r, o, rfl, ho, hc⟩
              simp only [Bool.false_eq_true, if_false]
              rw [← List.append_nil (_ ++ _)]
              exact verdicts_branch (verdictOf_cancelled _) fun x hx => absurd hx List.not_mem_nil

/-- AMEND is answered AMENDED exactly if the oldest order with the id is open. -/
theorem amended_iff (h : Heard m pid t tr) (hS : Sound m.exchange) (hN : Numbered m.exchange)
    {id quantity price : Word} (hid : IsNumber id) (hq : Admitted quantity) (hp : Admitted price) :
    verdicts t (mainStep fee m (.command pid (commandText (amendWords id quantity price)))).2 =
      [.AMENDED] ↔ OldestOpen m.exchange t (atoi id) := by
  have hw : ∀ w ∈ amendWords id quantity price, Plain w := by
    simp only [amendWords, List.forall_mem_cons, List.not_mem_nil, false_implies, implies_true,
      and_true]
    exact ⟨⟨⟨by decide, by decide⟩, by decide, by decide⟩, hid.plain, hq.1.plain, hp.1.plain⟩
  have hread := h.read hw (.amend id quantity price ⟨fun w hm => (hw w hm).1, rfl⟩)
  rw [h.step, handleMessage_amend hread, amendRequest_answer hS h.trader]
  exact amendSearch_isSome_iff hS hN h.trader hid hq hp

/-- CANCEL is answered CANCELLED exactly if an order with the id is open. -/
theorem cancelled_iff (h : Heard m pid t tr) (hS : Sound m.exchange) (hN : Numbered m.exchange)
    {id : Word} (hid : IsNumber id) :
    verdicts t (mainStep fee m (.command pid (commandText (cancelWords id)))).2 = [.CANCELLED] ↔
      HasOpen m.exchange t (atoi id) := by
  have hw : ∀ w ∈ cancelWords id, Plain w := by
    simp only [cancelWords, List.forall_mem_cons, List.not_mem_nil, false_implies, implies_true,
      and_true]
    exact ⟨⟨⟨by decide, by decide⟩, by decide, by decide⟩, hid.plain⟩
  have hread := h.read hw (.cancel id ⟨fun w hm => (hw w hm).1, rfl⟩)
  rw [h.step, handleMessage_cancel hread]
  refine (cancelRequest_answer (cancelWords id ++ m.marketArgv.drop 2) hid.2).trans ?_
  show (∃ (r : Nat) (o : Order), getOrder m.exchange.orderbook tr (atoi id) = some r ∧ _) ↔ _
  constructor
  · intro h
    obtain ⟨r, o, hg, ho, hc⟩ := h
    have hidAt : idAt m.exchange.orderbook r = some (atoi id) := by
      have := List.find?_some hg
      simpa using this
    obtain ⟨o', ho', hot⟩ := hS.entries t tr r h.trader (List.mem_of_find?_eq_some hg)
    rw [ho] at ho'
    cases ho'
    rw [idAt, ho] at hidAt
    exact ⟨r, o, ho, hc, hot, Option.some.inj hidAt⟩
  · intro h
    obtain ⟨k, o, hk, hc, hot, hoid⟩ := h
    subst hot
    obtain ⟨i, hi, hid'⟩ := hN.open_entry hS hk hc h.trader
    refine ⟨k, o, ?_, hk, hc⟩
    rw [← hoid, hid']
    exact hN.getOrder_eq h.trader hi

end Commands

/-! ## 4. Whether they agree -/

/-- If the trader has an open order with the id that is read, then the id is read as it was
    written, and the order was never amended: the book has no other version of it. -/
def ReachedByAmend (e : Exchange) (t : Nat) (id : Word) : Prop :=
  ∀ (k : Nat) (o : Order), e.orderbook[k]? = some o → o.completed = false → o.trader = t →
    o.orderId = atoi id →
    digitsVal id < 2 ^ 31 ∧ ∀ (j : Nat) (x : Order), e.orderbook[j]? = some x → x.trader = t →
      x.orderId = o.orderId → j = k

theorem reachedByAmend_iff {e : Exchange} {t : Nat} {tr : Trader} {id : Word} (hS : Sound e)
    (hN : Numbered e) (hids : ∀ (k : Nat) (o : Order), e.orderbook[k]? = some o →
      o.orderId < 2 ^ 31) (ht : e.traders[t]? = some tr) (hid : IsNumber id) :
    ((OldestOpen e t (atoi id) ↔ HasOpen e t (digitsVal id)) ∧
      (HasOpen e t (atoi id) ↔ HasOpen e t (digitsVal id))) ↔ ReachedByAmend e t id := by
  have hread : digitsVal id < 2 ^ 31 → atoi id = digitsVal id := (atoi_eq_iff hid.digits).mpr
  have hsmall : HasOpen e t (digitsVal id) → digitsVal id < 2 ^ 31 := by
    intro h
    obtain ⟨k, o, hk, -, -, hoid⟩ := h
    have := hids k o hk
    omega
  constructor
  · intro h k o hk hc hot hoid
    obtain ⟨hamend, hcancel⟩ := h
    have hopen := hcancel.mp ⟨k, o, hk, hc, hot, hoid⟩
    refine ⟨hsmall hopen, fun j x hj hxt hxid => ?_⟩
    obtain ⟨k', o', hk', hc', hot', hoid', hfirst⟩ := hamend.mpr hopen
    -- the oldest order with the id is the open one, and the open one is the newest
    obtain rfl : k' = k := hN.open_unique hS hk' hk hc' hc (hot'.trans hot.symm)
      (hoid'.trans hoid.symm)
    subst hot
    obtain ⟨i, hi, hid'⟩ := hN.open_entry hS hk hc ht
    have hle := (hN.newest _ i k' tr ht hi j x hj hxt (hxid.trans hid')).1
    have hge : ¬ j < k' := fun hlt => hfirst j x hlt hj hxt (hxid.trans hoid)
    omega
  · intro h
    have hcancel : HasOpen e t (atoi id) ↔ HasOpen e t (digitsVal id) := by
      constructor
      · intro h
        obtain ⟨k, o, hk, hc, hot, hoid⟩ := h
        rw [← hread (h k o hk hc hot hoid).1]
        exact ⟨k, o, hk, hc, hot, hoid⟩
      · intro hopen
        rw [hread (hsmall hopen)]
        exact hopen
    refine ⟨⟨?_, fun hopen => ?_⟩, hcancel⟩
    · intro h
      obtain ⟨k, o, hk, hc, hot, hoid, -⟩ := h
      exact hcancel.mp ⟨k, o, hk, hc, hot, hoid⟩
    · obtain ⟨k, o, hk, hc, hot, hoid⟩ := hcancel.mpr hopen
      refine ⟨k, o, hk, hc, hot, hoid, fun j x hj hx hxt hxid => ?_⟩
      have := (h k o hk hc hot hoid).2 j x hx hxt (hxid.trans hoid.symm)
      omega

/-- **AMEND and CANCEL reach the same orders as long as the order was never amended.** In every
    state of a run that numbers its orders, whatever id a trader writes: AMEND (with an admitted
    quantity and price) and CANCEL are both accepted exactly if the trader has an open order with
    that id -- if and only if an open order it reads the id of was never amended and the id is an
    `int`. -/
theorem amend_iff_cancel (fee : Int → Int) (products : List Word) (pids : List Nat)
    (argv : List Word) (hargv : argv.length = commandArgc) (is : List Input)
    (hsteps : AllSteps (mainNext fee) EntersNext (mainInit products pids argv) is)
    (pid t : Nat) (tr : Trader)
    (hrun : (mainRun fee products pids argv is).exchangeDisconnect = false)
    (hsender : findTrader (mainRun fee products pids argv is).exchange.traders pid = some t)
    (htr : (mainRun fee products pids argv is).exchange.traders[t]? = some tr)
    (hconn : tr.disconnected = false) (id quantity price : Word) (hid : IsNumber id)
    (hq : Admitted quantity) (hp : Admitted price) :
    let m := mainRun fee products pids argv is
    ((verdicts t (mainStep fee m
        (.command pid (commandText (amendWords id quantity price)))).2 = [.AMENDED] ↔
      HasOpen m.exchange t (digitsVal id)) ∧
    (verdicts t (mainStep fee m (.command pid (commandText (cancelWords id)))).2 = [.CANCELLED] ↔
      HasOpen m.exchange t (digitsVal id))) ↔ ReachedByAmend m.exchange t id := by
  intro m
  obtain ⟨hok, hN⟩ := numbered_run fee products pids argv is hsteps
  have heard : Heard m pid t tr :=
    ⟨hrun, hsender, htr, hconn, argv_run fee products pids hargv is⟩
  rw [amended_iff heard hok.sound hN hid hq hp, cancelled_iff heard hok.sound hN hid]
  exact reachedByAmend_iff hok.sound hN (idsSmall_run fee products pids argv is) htr hid

/-- An order that was not amended yet. -/
theorem amend_iff_cancel_first :
    let m := mainRun (· / 100) ["GPU".toList] [10, 11] (List.replicate 6 [])
      [.command 10 "SELL 0 GPU 4 100;".toList]
    (verdicts 0 (mainStep (· / 100) m (.command 10 "AMEND 0 5 90;".toList)).2 = [.AMENDED] ↔
      HasOpen m.exchange 0 0) ∧
    (verdicts 0 (mainStep (· / 100) m (.command 10 "CANCEL 0;".toList)).2 = [.CANCELLED] ↔
      HasOpen m.exchange 0 0) := by
  intro m
  have hlen : m.exchange.orderbook.length = 1 := by decide +kernel
  refine (amend_iff_cancel (· / 100) ["GPU".toList] [10, 11] (List.replicate 6 []) rfl
    [.command 10 "SELL 0 GPU 4 100;".toList] (by decide +kernel) 10 0 ⟨10, [0], [0], [0], false⟩
    (by decide +kernel) (by decide +kernel) (by decide +kernel) rfl "0".toList "5".toList
    "90".toList ⟨by decide, by decide⟩ ⟨⟨by decide, by decide⟩, by decide, by decide⟩
    ⟨⟨by decide, by decide⟩, by decide, by decide⟩).mpr ?_
  intro k o hk hc hot hoid
  refine ⟨by decide, fun j x hj hxt hxid => ?_⟩
  have hk' : k < m.exchange.orderbook.length := (List.getElem?_eq_some_iff.mp hk).1
  have hj' : j < m.exchange.orderbook.length := (List.getElem?_eq_some_iff.mp hj).1
  omega

/-- After a first AMEND the order is open, CANCEL would close it, and a second AMEND is invalid. -/
theorem amend_stops_at_closed :
    let is := [Input.command 10 "SELL 0 GPU 4 100;".toList, .command 10 "AMEND 0 5 90;".toList]
    let m := mainRun (· / 100) ["GPU".toList] [10, 11] (List.replicate 6 []) is
    AllSteps (mainNext (· / 100)) EntersNext
      (mainInit ["GPU".toList] [10, 11] (List.replicate 6 [])) is ∧
    HasOpen m.exchange 0 0 ∧
    verdicts 0 (mainStep (· / 100) m (.command 10 "CANCEL 0;".toList)).2 = [.CANCELLED] ∧
    verdicts 0 (mainStep (· / 100) m (.command 10 "AMEND 0 6 80;".toList)).2 = [.INVALID] := by
  refine ⟨by decide +kernel, ⟨1, ⟨.SELL, "GPU".toList, 5, 90, 0, 0, 1, false⟩, by decide +kernel,
    rfl, rfl, rfl⟩, by decide +kernel, by decide +kernel⟩

end SysProg.Pe
