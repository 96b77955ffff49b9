/-
  File:      SysProg/Pe/Search.lean
  Subject:   What `getBestBuyOrder` and `getBestSellOrder` find, on every
             book.

  Both are one search, read through `rank`: the price on the SELL side, its
  negation on the BUY side, so that the lower rank is served first. The
  candidate is the earliest open order of the product with the lowest rank
  (the first cell of the exchange sort); what is returned is the first open
  order of that side with the candidate's trader and id.

  * `orderSort_exact` -- what the two sorts leave, and which order comes first;
  * `getBest_eq_none` -- nothing is found exactly if no open order of the
    product meets the limit;
  * `getBest_spec` -- the candidate, and how the order returned relates to it.
-/
import SysProg.Pe.Exchange
import Mathlib.Tactic.Linarith

namespace SysProg.Pe

open Lib

/-- The search for the best order of one side. -/
def getBest : OrderType → List Order → Word → Int → Option Nat
  | .BUY => getBestBuyOrder
  | .SELL => getBestSellOrder

/-- What a deal does for the trader of an order of that side. -/
def moveOf : OrderType → List Word → Trader → Word → Int → Int → Option Trader
  | .BUY => buy
  | .SELL => sell

/-- Lower ranks are served first: the cheapest sellers, the dearest buyers. -/
def rank : OrderType → Int → Int
  | .BUY, p => -p
  | .SELL, p => p

theorem placeFor_eq (fee : Int → Int) (side : OrderType) :
    placeFor fee side = placeOrder fee side.other (getBest side.other) (moveOf side)
      (moveOf side.other) := by
  cases side <;> rfl

/-- An open order of one side for one product. -/
def Resting (side : OrderType) (x : Word) (o : Order) : Prop :=
  o.orderType = side ∧ o.item = x ∧ o.completed = false

instance (side : OrderType) (x : Word) (o : Order) : Decidable (Resting side x o) :=
  inferInstanceAs (Decidable (_ ∧ _ ∧ _))

/-- The comparison of the sort of one side. -/
def dearer (side : OrderType) (x y : Order) : Bool :=
  decide (rank side x.unitPrice > rank side y.unitPrice)

/-- The limit test of the search of one side. -/
def within (side : OrderType) (limit : Int) (o : Order) : Bool :=
  decide (rank side o.unitPrice ≤ rank side limit)

theorem dearer_strictWeak (side : OrderType) : StrictWeak (dearer side) where
  irrefl x := by simp [dearer]
  trans x y z h₁ h₂ := by
    simp only [dearer, decide_eq_true_eq] at h₁ h₂ ⊢
    omega
  split x y z h := by
    simp only [dearer, decide_eq_true_eq] at h ⊢
    omega

theorem dearer_buy : dearer .BUY = fun x y => decide (x.unitPrice < y.unitPrice) := by
  funext x y
  refine decide_eq_decide.mpr ?_
  simp only [rank]
  omega

theorem orderSortReverse_eq (os : List Order) :
    orderSortReverse os = exchangeSort (dearer .BUY) os := by
  rw [dearer_buy]
  rfl

/-- The sort of one side, in terms of the ranks. -/
theorem sorted_first (side : OrderType) (os : List Order) :
    (exchangeSort (dearer side) os).Perm os ∧
    (exchangeSort (dearer side) os).Pairwise
      (fun a b => rank side a.unitPrice ≤ rank side b.unitPrice) ∧
    ∀ o l, exchangeSort (dearer side) os = o :: l → ∃ l₁ l₂, os = l₁ ++ o :: l₂ ∧
      (∀ z ∈ l₁, rank side o.unitPrice < rank side z.unitPrice) ∧
      ∀ z ∈ os, rank side o.unitPrice ≤ rank side z.unitPrice := by
  refine ⟨exchangeSort_perm _ os, ?_, fun o l h => ?_⟩
  · refine (exchangeSort_sorted (dearer_strictWeak side) os).imp fun h => ?_
    exact Int.not_lt.mp (of_decide_eq_false h)
  · obtain ⟨l₁, l₂, hsplit, hfirst, hleast⟩ := exchangeSort_first (dearer_strictWeak side) h
    exact ⟨l₁, l₂, hsplit, fun z hz => of_decide_eq_true (hfirst z hz),
      fun z hz => Int.not_lt.mp (of_decide_eq_false (hleast z hz))⟩

theorem orderSortReverse_sorted (os : List Order) :
    (orderSortReverse os).Pairwise fun a b => b.unitPrice ≤ a.unitPrice := by
  rw [orderSortReverse_eq]
  exact (sorted_first .BUY os).2.1.imp Int.le_of_neg_le_neg

/-- **The sorts of pe_market.c**: a permutation, in the order of the prices, whose first order is
    the first of those with the lowest (highest) price. -/
theorem orderSort_exact (os : List Order) :
    ((orderSort os).Perm os ∧
      (orderSort os).Pairwise (fun a b => a.unitPrice ≤ b.unitPrice) ∧
      ∀ o l, orderSort os = o :: l → ∃ l₁ l₂, os = l₁ ++ o :: l₂ ∧
        (∀ z ∈ l₁, o.unitPrice < z.unitPrice) ∧ ∀ z ∈ os, o.unitPrice ≤ z.unitPrice) ∧
    ((orderSortReverse os).Perm os ∧
      (orderSortReverse os).Pairwise (fun a b => b.unitPrice ≤ a.unitPrice) ∧
      ∀ o l, orderSortReverse os = o :: l → ∃ l₁ l₂, os = l₁ ++ o :: l₂ ∧
        (∀ z ∈ l₁, z.unitPrice < o.unitPrice) ∧ ∀ z ∈ os, z.unitPrice ≤ o.unitPrice) := by
  obtain ⟨hperm, _, hfirst⟩ := sorted_first .BUY os
  rw [← orderSortReverse_eq] at hperm hfirst
  refine ⟨sorted_first .SELL os, hperm, orderSortReverse_sorted os, fun o l h => ?_⟩
  obtain ⟨l₁, l₂, hsplit, hlt, hle⟩ := hfirst o l h
  exact ⟨l₁, l₂, hsplit, fun z hz => Int.lt_of_neg_lt_neg (hlt z hz),
    fun z hz => Int.le_of_neg_le_neg (hle z hz)⟩

/-- Three orders to sell: the two of the higher price change places, the cheapest comes first. -/
theorem orderSort_exact_three :
    let o : Int → Int → Order := fun price index =>
      { orderType := .SELL, item := "A".toList, quantity := 1, unitPrice := price, trader := 0,
        orderId := index, orderIndex := index, completed := false }
    orderSort [o 2 0, o 2 1, o 1 2] = [o 1 2, o 2 1, o 2 0] ∧
      ∀ z ∈ [o 2 0, o 2 1, o 1 2], (o 1 2).unitPrice ≤ z.unitPrice := by
  intro o
  have hsort : orderSort [o 2 0, o 2 1, o 1 2] = [o 1 2, o 2 1, o 2 0] := by decide +kernel
  obtain ⟨_, _, _, _, hleast⟩ := (orderSort_exact [o 2 0, o 2 1, o 1 2]).1.2.2 _ _ hsort
  exact ⟨hsort, hleast⟩

/-- **Both searches are one**, up to the direction of the prices. -/
theorem getBest_eq (side : OrderType) (ob : List Order) (x : Word) (limit : Int) :
    getBest side ob x limit =
      scanMatched side ob (within side limit) (exchangeSort (dearer side) (matchedOrders side ob x)) := by
  cases side with
  | SELL => rfl
  | BUY =>
      have hw : within .BUY limit = fun o => decide (o.unitPrice ≥ limit) := by
        funext o
        refine decide_eq_decide.mpr ?_
        simp only [rank]
        omega
      rw [hw, dearer_buy]
      rfl

theorem mem_matchedOrders {side : OrderType} {ob : List Order} {x : Word} {o : Order} :
    o ∈ matchedOrders side ob x ↔ o ∈ ob ∧ Resting side x o := by
  simp only [matchedOrders, List.mem_filter, Bool.and_eq_true, decide_eq_true_eq,
    Bool.not_eq_eq_eq_not, Bool.not_true, Resting]
  tauto

/-- The two orders carry the same trader and id. -/
def SameKey (a b : Order) : Prop := a.trader = b.trader ∧ a.orderId = b.orderId

/-- What the second search returns. -/
theorem findAgain_spec {side : OrderType} {ob : List Order} {c : Order} {b : Nat}
    (h : findAgain side ob c = some b) :
    ∃ best, ob[b]? = some best ∧ SameKey best c ∧ best.orderType = side ∧ best.completed = false ∧
      ∀ j o, j < b → ob[j]? = some o → SameKey o c → o.orderType = side → o.completed = true := by
  unfold findAgain at h
  obtain ⟨hb, hp, hmin⟩ := List.findIdx?_eq_some_iff_getElem.mp h
  simp only [Bool.and_eq_true, decide_eq_true_eq, Bool.not_eq_eq_eq_not, Bool.not_true] at hp
  refine ⟨ob[b], List.getElem?_eq_getElem hb, ⟨hp.1.1.1, hp.1.1.2⟩, hp.1.2, hp.2, ?_⟩
  intro j o hj ho hk hs
  have hjl : j < ob.length := by omega
  have hoe : ob[j] = o := by
    rw [List.getElem?_eq_getElem hjl] at ho
    exact Option.some.inj ho
  have hn := hmin j hj
  rw [hoe] at hn
  by_contra hc
  exact hn (by simpa [hk.1, hk.2, hs] using hc)

/-- The second search succeeds for an open order of the book. -/
theorem findAgain_of_mem {side : OrderType} {ob : List Order} {c : Order} {i : Nat}
    (hi : ob[i]? = some c) (hs : c.orderType = side) (hc : c.completed = false) :
    ∃ b, findAgain side ob c = some b ∧ b ≤ i := by
  have hmem : c ∈ ob := List.mem_of_getElem? hi
  cases hf : findAgain side ob c with
  | none =>
      have h := List.findIdx?_eq_none_iff.mp hf c hmem
      simp [hs, hc] at h
  | some b =>
      refine ⟨b, rfl, ?_⟩
      obtain ⟨best, hb, _, _, hbc, hmin⟩ := findAgain_spec hf
      by_contra hlt
      have h := hmin i c (by omega) hi ⟨rfl, rfl⟩ hs
      rw [hc] at h
      cases h

theorem scanMatched_none {side : OrderType} {ob : List Order} {good : Order → Bool}
    {l : List Order} (h : ∀ o ∈ l, good o = false) : scanMatched side ob good l = none := by
  induction l with
  | nil => rfl
  | cons o os ih =>
      obtain ⟨ho, hos⟩ := List.forall_mem_cons.mp h
      unfold scanMatched
      rw [ho]
      exact ih hos

/-- The earliest order of lowest rank among those that rest, with its place in the book. -/
structure Candidate (side : OrderType) (ob : List Order) (x : Word) (i : Nat) (c : Order) :
    Prop where
  place : ob[i]? = some c
  rests : Resting side x c
  least : ∀ (j : Nat) (o : Order), ob[j]? = some o → Resting side x o →
    rank side c.unitPrice ≤ rank side o.unitPrice
  first : ∀ (j : Nat) (o : Order), j < i → ob[j]? = some o → Resting side x o →
    rank side c.unitPrice < rank side o.unitPrice

/-- The first cell of the sorted candidates is the candidate. -/
theorem sorted_head (side : OrderType) (ob : List Order) (x : Word) :
    matchedOrders side ob x = [] ∨
      ∃ i c l, Candidate side ob x i c ∧
        exchangeSort (dearer side) (matchedOrders side ob x) = c :: l := by
  cases hm : matchedOrders side ob x with
  | nil => exact Or.inl rfl
  | cons m ms =>
      right
      obtain ⟨c, l, hl⟩ : ∃ c l, exchangeSort (dearer side) (m :: ms) = c :: l :=
        ⟨_, _, exchangeSort_cons _ m ms⟩
      obtain ⟨l₁, l₂, hsplit, hfirst, hleast⟩ := exchangeSort_first (dearer_strictWeak side) hl
      -- the candidate's place in the book: the filtered prefix, then what the filter skips
      have hflt : matchedOrders side ob x = l₁ ++ c :: l₂ := by rw [hm, hsplit]
      obtain ⟨p, q, hob, hp, hq⟩ := List.filter_eq_append_iff.mp hflt
      obtain ⟨q₁, q₂, hq', hskip, hc, -⟩ := List.filter_eq_cons_iff.mp hq
      have hrest : Resting side x c := by
        have h : c ∈ matchedOrders side ob x := by rw [hflt]; simp
        exact (mem_matchedOrders.mp h).2
      have hmem : ∀ (j : Nat) (o : Order), ob[j]? = some o → Resting side x o → o ∈ m :: ms := by
        intro j o ho hr
        rw [← hm]
        exact mem_matchedOrders.mpr ⟨List.mem_of_getElem? ho, hr⟩
      refine ⟨(p ++ q₁).length, c, l, ⟨?_, hrest, ?_, ?_⟩, hl⟩
      · rw [hob, hq', ← List.append_assoc]
        simp
      · intro j o ho hr
        have h := hleast o (hmem j o ho hr)
        simp only [dearer, decide_eq_false_iff_not, not_lt, gt_iff_lt] at h
        exact h
      · intro j o hj ho hr
        rw [hob, hq', ← List.append_assoc, List.getElem?_append_left hj] at ho
        rcases List.mem_append.mp (List.mem_of_getElem? ho) with hop | hoq
        · have hol : o ∈ l₁ := by
            rw [← hp]
            refine List.mem_filter.mpr ⟨hop, ?_⟩
            simp [hr.1, hr.2.1, hr.2.2]
          have h := hfirst o hol
          simp only [dearer, decide_eq_true_eq, gt_iff_lt] at h
          exact h
        · exact absurd (by simp [hr.1, hr.2.1, hr.2.2]) (hskip o hoq)

/-- **Nothing is found exactly if no open order of the product meets the limit.** -/
theorem getBest_eq_none {side : OrderType} {ob : List Order} {x : Word} {limit : Int} :
    getBest side ob x limit = none ↔
      ∀ (j : Nat) (o : Order), ob[j]? = some o → Resting side x o →
        ¬ rank side o.unitPrice ≤ rank side limit := by
  rw [getBest_eq]
  constructor
  · intro h j o ho hr hle
    rcases sorted_head side ob x with hnil | ⟨i, c, l, hc, hsort⟩
    · have hmem : o ∈ matchedOrders side ob x :=
        mem_matchedOrders.mpr ⟨List.mem_of_getElem? ho, hr⟩
      rw [hnil] at hmem
      exact List.not_mem_nil hmem
    · have hgood : within side limit c = true :=
        decide_eq_true (Int.le_trans (hc.least j o ho hr) hle)
      obtain ⟨b, hb, _⟩ := findAgain_of_mem hc.place hc.rests.1 hc.rests.2.2
      rw [hsort, scanMatched, if_pos hgood, hb] at h
      cases h
  · intro h
    refine scanMatched_none fun o ho => ?_
    obtain ⟨hmem, hr⟩ := mem_matchedOrders.mp ((exchangeSort_perm _ _).mem_iff.mp ho)
    obtain ⟨j, hj⟩ := List.mem_iff_getElem?.mp hmem
    exact decide_eq_false (h j o hj hr)

/-- **What is found**: a candidate within the limit, and the first open order of the side with
    the candidate's trader and id. -/
theorem getBest_spec {side : OrderType} {ob : List Order} {x : Word} {limit : Int} {b : Nat}
    (h : getBest side ob x limit = some b) :
    ∃ i c best, Candidate side ob x i c ∧ rank side c.unitPrice ≤ rank side limit ∧
      ob[b]? = some best ∧ b ≤ i ∧ SameKey best c ∧ best.orderType = side ∧
      best.completed = false := by
  rw [getBest_eq] at h
  rcases sorted_head side ob x with hnil | ⟨i, c, l, hc, hsort⟩
  · rw [hnil] at h
    cases h
  · by_cases hgood : within side limit c = true
    · rw [hsort, scanMatched, if_pos hgood] at h
      obtain ⟨b', hb', hle⟩ := findAgain_of_mem hc.place hc.rests.1 hc.rests.2.2
      rw [hb'] at h
      cases h
      obtain ⟨best, hbest, hk, hs, hopen, _⟩ := findAgain_spec hb'
      exact ⟨i, c, best, hc, of_decide_eq_true hgood, hbest, hle, hk, hs, hopen⟩
    · -- the candidate is beyond the limit, so every other order is
      have hno : scanMatched side ob (within side limit)
          (exchangeSort (dearer side) (matchedOrders side ob x)) = none := by
        refine scanMatched_none fun o ho => ?_
        obtain ⟨hmem, hr⟩ := mem_matchedOrders.mp ((exchangeSort_perm _ _).mem_iff.mp ho)
        obtain ⟨j, hj⟩ := List.mem_iff_getElem?.mp hmem
        have hle := hc.least j o hj hr
        have hgt : ¬ rank side c.unitPrice ≤ rank side limit := fun e => hgood (decide_eq_true e)
        exact decide_eq_false (by omega)
      rw [hno] at h
      cases h

end SysProg.Pe
