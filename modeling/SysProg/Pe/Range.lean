/-
  File:      SysProg/Pe/Range.lean
  Subject:   WHEN THE POSITIONS FIT THEIR TYPES.

  `inventory_quantity` is an array of `int`, `bank` one of `long long`; here
  both are integers. A trade moves a position by no more than the limits of an
  order allow, so how far a position can get is a matter of the number of
  trades.

  * `Ranged` -- orders and trades within the limits;
  * `sumOver_le` -- what a sum over the log comes to;
  * `fitsTypes_of_ledger` -- a ledger of at most 2147 trades within the limits;
  * `positions_fit` -- no position leaves its type in the first 2147 trades.
-/
import SysProg.Pe.Ledger

namespace SysProg.Pe

open Lib

/-! ## 1. Orders and trades within the limits -/

def OrderInRange (o : Order) : Prop :=
  o.quantity ≤ maxQuantity ∧ 1 ≤ o.unitPrice ∧ o.unitPrice ≤ maxUnitPrice

/-- The value and the fee of a trade are those of a quantity and a price within the limits. -/
structure TradeInRange (y : Trade) : Prop where
  quantity : 0 ≤ y.transactionQuantity ∧ y.transactionQuantity ≤ maxQuantity
  value : 0 ≤ y.transactionQuantity * y.transactionPrice ∧
    y.transactionQuantity * y.transactionPrice ≤ maxQuantity * maxUnitPrice
  tax : 0 ≤ y.tax ∧ y.tax ≤ maxQuantity * maxUnitPrice

structure Ranged (e : Exchange) : Prop where
  orders : ∀ (k : Nat) (o : Order), e.orderbook[k]? = some o → OrderInRange o
  trades : ∀ y ∈ e.completedTrades, TradeInRange y

/-- A fee is no more than the value it is taken from. -/
def ModestFee (fee : Int → Int) : Prop := ∀ v, 0 ≤ v → 0 ≤ fee v ∧ fee v ≤ v

section Steps

variable {fee : Int → Int} {e : Exchange} {side : OrderType} {r b : Nat} {o best : Order}

theorem newOrder_inRange {argv : List Word} {t : Nat} {tr : Trader} {type : Option OrderType}
    (h : newOrder argv t tr type = some o) : OrderInRange o := by
  obtain ⟨s, -, -, -, -, -, -, hq, hp, hp', rfl⟩ := newOrder_eq_some.mp h
  exact ⟨hq, hp, hp'⟩

theorem matchTrade_inRange (hfee : ModestFee fee) (hB : BookOk e) (hR : Ranged e)
    (h : Match e side r b o best) : TradeInRange (matchTrade fee r b o best) := by
  have hpos := h.amount_pos hB
  have hle : matchAmount o best ≤ maxQuantity := by
    have ho := (hR.orders r o h.incoming).1
    unfold matchAmount
    omega
  obtain ⟨-, hp, hp'⟩ := hR.orders b best h.inBook
  have hvalue : 0 ≤ matchAmount o best * best.unitPrice ∧
      matchAmount o best * best.unitPrice ≤ maxQuantity * maxUnitPrice :=
    ⟨Int.mul_nonneg (by omega) (by omega), Int.mul_le_mul hle hp' (by omega) (by decide)⟩
  have hf := hfee _ hvalue.1
  exact ⟨⟨(by omega : 0 ≤ matchAmount o best), hle⟩, hvalue, hf.1, hf.2.trans hvalue.2⟩

theorem ranged_match (hfee : ModestFee fee) (hS : Sound e) (hR : Ranged e)
    (h : Match e side r b o best) : Ranged (applyMatch fee e side r b o best) := by
  have hpos := h.amount_pos hS.toBookOk
  have hfill : ∀ x, OrderInRange x → OrderInRange (x.fill (matchAmount o best)) := by
    intro x hx
    unfold OrderInRange
    rw [fill_quantity, fill_unitPrice]
    exact ⟨by have := hx.1; omega, hx.2⟩
  refine ⟨fun k x hx => ?_, fun y hy => ?_⟩
  · rw [applyMatch_book h] at hx
    split at hx
    · cases hx
      exact hfill o (hR.orders r o h.incoming)
    · split at hx
      · cases hx
        exact hfill best (hR.orders b best h.inBook)
      · exact hR.orders k x hx
  · rcases List.mem_append.mp hy with hy | hy
    · exact hR.trades y hy
    · rw [List.mem_singleton.mp hy]
      exact matchTrade_inRange hfee hS.toBookOk hR h

theorem ranged_close (hR : Ranged e) (k : Nat) : Ranged (e.onOrder k closeOrder) := by
  refine ⟨fun j x hx => ?_, hR.trades⟩
  obtain ⟨x₀, hx₀, ⟨_, rfl⟩ | ⟨_, rfl⟩⟩ := getElem?_modify_of hx
  · exact hR.orders j x hx₀
  · exact hR.orders j x₀ hx₀

theorem ranged_add (hR : Ranged e) (ho : OrderInRange o) : Ranged (marketAddOrder e o) := by
  refine ⟨fun j x hx => ?_, hR.trades⟩
  rcases getElem?_snoc hx with hx | ⟨_, rfl⟩
  · exact hR.orders j x hx
  · exact ho

end Steps

theorem ranged_next {fee : Int → Int} (hfee : ModestFee fee) {m : Main} (hS : Sound m.exchange)
    (hR : Ranged m.exchange) (i : Input) : Ranged (mainNext fee m i).exchange := by
  refine (mainNext_inv (I := Ranged)
    (fun e side r b o best hS hR hM => ranged_match hfee hS hR hM) hS ?_ ?_ ?_ ?_ ?_).2
  · intro t o h _
    obtain ⟨_, _, tr, argv, -, -, -, -, -, hnew, -⟩ := entryOf_eq_new fee h
    have hadd := ranged_add hR (newOrder_inRange hnew)
    exact ⟨hadd.orders, hadd.trades⟩
  · intro t k o old h _
    obtain ⟨_, _, tr, argv, -, -, -, hs, -⟩ := entryOf_eq_amended fee h
    obtain ⟨_, -, -, -, -, hnew, -⟩ := amendSearch_built hs
    have hclose := ranged_close (ranged_add hR (newOrder_inRange hnew)) k
    exact ⟨hclose.orders, hclose.trades⟩
  · exact fun _ => hR
  · exact fun r o _ _ _ => ranged_close hR r
  · exact fun _ _ => ⟨hR.orders, hR.trades⟩

theorem ranged_run {fee : Int → Int} (hfee : ModestFee fee) (products : List Word) (pids : List Nat)
    (argv : List Word) (is : List Input) : Ranged (mainRun fee products pids argv is).exchange :=
  reachable_inv (I := fun m => Ranged m.exchange)
    ⟨fun _ _ ho => (Option.some_ne_none _ ho.symm).elim, fun _ hy => (List.not_mem_nil hy).elim⟩
    (fun _ i hok h => ranged_next hfee hok.sound h i) is

/-! ## 2. Sums over the log -/

theorem sum_map_le {f : Trade → Int} {M : Int} {ts : List Trade}
    (h : ∀ y ∈ ts, 0 ≤ f y ∧ f y ≤ M) : 0 ≤ (ts.map f).sum ∧ (ts.map f).sum ≤ M * ts.length := by
  induction ts with
  | nil => exact ⟨Int.le_refl 0, by simp⟩
  | cons y ts ih =>
      obtain ⟨hy, hts⟩ := List.forall_mem_cons.mp h
      obtain ⟨h0, h1⟩ := ih hts
      rw [List.map_cons, List.sum_cons, List.length_cons, Nat.cast_succ, Int.mul_add, Int.mul_one]
      omega

theorem sumOver_le (pick : Order → Order → Order) (book : List Order) (t : Nat) (x : Word)
    {f : Trade → Int} {M : Int} (hM : 0 ≤ M) {ts : List Trade} (h : ∀ y ∈ ts, 0 ≤ f y ∧ f y ≤ M) :
    0 ≤ sumOver pick book t x f ts ∧ sumOver pick book t x f ts ≤ M * ts.length := by
  unfold sumOver
  refine sum_map_le fun y hy => ?_
  split
  · split
    · exact h y hy
    · exact ⟨Int.le_refl 0, hM⟩
  · exact ⟨Int.le_refl 0, hM⟩

/-! ## 3. Positions -/

/-- Each quantity is an `int`, each bank entry a `long long`, and so is the sum of the fees. -/
def FitsTypes (e : Exchange) : Prop :=
  (∀ tr ∈ e.traders, (∀ q ∈ tr.inventoryQuantity, -2 ^ 31 ≤ q ∧ q < 2 ^ 31) ∧
    ∀ v ∈ tr.bank, -2 ^ 63 ≤ v ∧ v < 2 ^ 63) ∧
  0 ≤ e.transactionFee ∧ e.transactionFee < 2 ^ 63

theorem fitsTypes_of_ledger {e : Exchange} (hL : Ledger e) (hS : Sound e) (hR : Ranged e)
    (hn : e.completedTrades.length ≤ 2147) : FitsTypes e := by
  have hn' : (e.completedTrades.length : Int) ≤ 2147 := Int.ofNat_le.mpr hn
  have hquantity := fun y hy => (hR.trades y hy).quantity
  have hvalue := fun y hy => (hR.trades y hy).value
  have htax := fun y hy => (hR.trades y hy).tax
  have hquantities : ∀ t x, -2 ^ 31 ≤ ledgerQuantity e t x ∧ ledgerQuantity e t x < 2 ^ 31 := by
    intro t x
    have hb := sumOver_le (ofSide .BUY) e.orderbook t x (f := fun y => y.transactionQuantity)
      (by decide) hquantity
    have hs := sumOver_le (ofSide .SELL) e.orderbook t x (f := fun y => y.transactionQuantity)
      (by decide) hquantity
    unfold ledgerQuantity
    unfold maxQuantity at hb hs
    omega
  have hbanks : ∀ t x, -2 ^ 63 ≤ ledgerBank e t x ∧ ledgerBank e t x < 2 ^ 63 := by
    intro t x
    have hs := sumOver_le (ofSide .SELL) e.orderbook t x (by decide) hvalue
    have hb := sumOver_le (ofSide .BUY) e.orderbook t x (by decide) hvalue
    have hf := sumOver_le payer e.orderbook t x (f := fun y => y.tax) (by decide) htax
    unfold ledgerBank
    unfold maxQuantity maxUnitPrice at hs hb hf
    omega
  refine ⟨fun tr htr => ?_, ?_⟩
  · obtain ⟨t, ht⟩ := List.mem_iff_getElem?.mp htr
    have hlt := (List.getElem?_eq_some_iff.mp ht).1
    obtain ⟨hwq, hwb⟩ := hS.width t tr ht
    refine ⟨fun q hq => ?_, fun v hv => ?_⟩
    · obtain ⟨i, hi⟩ := List.mem_iff_getElem?.mp hq
      have hil : i < e.products.length := hwq ▸ (List.getElem?_eq_some_iff.mp hi).1
      have h := hL.quantity t i _ hlt (List.getElem?_eq_getElem hil)
      rw [pieces, ht, Option.bind_some, hi] at h
      rw [Option.some.inj h]
      exact hquantities t _
    · obtain ⟨i, hi⟩ := List.mem_iff_getElem?.mp hv
      have hil : i < e.products.length := hwb ▸ (List.getElem?_eq_some_iff.mp hi).1
      have h := hL.bank t i _ hlt (List.getElem?_eq_getElem hil)
      rw [dollars, ht, Option.bind_some, hi] at h
      rw [Option.some.inj h]
      exact hbanks t _
  · have h := sum_map_le (f := fun y => y.tax) htax
    rw [hL.fees]
    unfold maxQuantity maxUnitPrice at h
    omega

/-- **No position leaves its type in the first 2147 trades**, whoever trades what: each quantity is
    an `int`, each bank entry a `long long`, and so is the sum of the fees. -/
theorem positions_fit (fee : Int → Int) (hfee : ModestFee fee) (products : List Word)
    (hnd : products.Nodup) (pids : List Nat) (argv : List Word) (is : List Input)
    (hn : (mainRun fee products pids argv is).exchange.completedTrades.length ≤ 2147) :
    let e := (mainRun fee products pids argv is).exchange
    (∀ tr ∈ e.traders, (∀ q ∈ tr.inventoryQuantity, -2 ^ 31 ≤ q ∧ q < 2 ^ 31) ∧
      ∀ v ∈ tr.bank, -2 ^ 63 ≤ v ∧ v < 2 ^ 63) ∧
    0 ≤ e.transactionFee ∧ e.transactionFee < 2 ^ 63 := by
  intro e
  exact fitsTypes_of_ledger (ledger_run fee hnd pids argv is)
    (mainOk_run fee products pids argv is).sound (ranged_run hfee products pids argv is) hn

/-- The fee of the source, on whole dollars. -/
theorem modestFee_percent : ModestFee fun v => (v + 50) / 100 := by
  intro v hv
  dsimp only
  omega

/-- One trade. -/
theorem positions_fit_oneTrade :
    let e := (mainRun (fun v => (v + 50) / 100) ["GPU".toList] [10, 11] (List.replicate 6 [])
      [.command 10 "SELL 0 GPU 4 100;".toList, .command 11 "BUY 0 GPU 6 100;".toList]).exchange
    e.completedTrades.length ≤ 2147 ∧ 0 ≤ e.transactionFee ∧ e.transactionFee < 2 ^ 63 := by
  intro e
  have hn : e.completedTrades.length ≤ 2147 := by decide +kernel
  exact ⟨hn, (positions_fit _ modestFee_percent ["GPU".toList] (by decide) [10, 11]
    (List.replicate 6 []) _ hn).2⟩

end SysProg.Pe
