/-
  File:      SysProg/Pe/Served.lean
  Subject:   WHO A NEW ORDER TRADES WITH, read off the book before it comes.

  The search of one side depends on the open orders of that side only. So
  the orders a sweep meets are the ones the search returns one after the
  other from the book as it was, each closed before the next search: `served`.
  How far the sweep gets is a matter of quantities: `referenceTrades` walks
  the list greedily.

  * `getBest_congr` -- the search sees the open orders of its side;
  * `served`, `referenceTrades` -- the list, and the walk;
  * `sweep_served` -- the calls until NULL walk the list, on every book.
-/
import SysProg.Lib.Agree
import SysProg.Pe.Step

namespace SysProg.Pe

open Lib

/-! ## 1. What the search sees -/

/-- An open order of the side. -/
def openOf (side : OrderType) (o : Order) : Bool := o.orderType = side && !o.completed

theorem openOf_iff {side : OrderType} {o : Order} :
    openOf side o = true ↔ o.orderType = side ∧ o.completed = false := by
  simp [openOf]

theorem openOf_of_type {side : OrderType} {o : Order} (h : o.orderType ≠ side) :
    openOf side o = false := Bool.eq_false_iff.mpr fun ho => h (openOf_iff.mp ho).1

theorem openOf_of_closed {side : OrderType} {o : Order} (h : o.completed = true) :
    openOf side o = false :=
  Bool.eq_false_iff.mpr fun ho => by
    rw [(openOf_iff.mp ho).2] at h
    cases h

/-- **The search sees the open orders of its side.** -/
theorem getBest_congr {side : OrderType} {ob ob' : List Order} (h : AgreeOn (openOf side) ob ob')
    (x : Word) (limit : Int) : getBest side ob x limit = getBest side ob' x limit := by
  have hm : matchedOrders side ob x = matchedOrders side ob' x := by
    refine filter_agree (fun o ho => ?_) h
    simp only [Bool.and_eq_true, decide_eq_true_eq] at ho
    exact openOf_iff.mpr ⟨ho.1.2, by simpa using ho.2⟩
  have hf : ∀ o, findAgain side ob o = findAgain side ob' o := by
    intro o
    refine findIdx?_agree (fun b hb => ?_) h
    simp only [Bool.and_eq_true, decide_eq_true_eq] at hb
    exact openOf_iff.mpr ⟨hb.1.2, by simpa using hb.2⟩
  have hs : ∀ good l, scanMatched side ob good l = scanMatched side ob' good l := by
    intro good l
    induction l with
    | nil => rfl
    | cons o os ih => rw [scanMatched, scanMatched, hf, ih]
  rw [getBest_eq, getBest_eq, hm, hs]

/-! ## 2. The list and the walk -/

/-- The orders the search for `x` within `limit` returns one after the other, each closed before
    the next search; at most `n` of them. -/
def served (side : OrderType) (x : Word) (limit : Int) : Nat → List Order → List Order
  | 0, _ => []
  | n + 1, book =>
      match getBest side book x limit with
      | none => []
      | some b =>
        match book[b]? with
        | none => []
        | some best => best :: served side x limit n (book.modify b closeOrder)

/-- The greedy walk of an order at position `r` with quantity `q`: each order in turn gives the
    smaller of the two quantities at its own price, until the order is used up. -/
def referenceTrades (fee : Int → Int) (r : Nat) : Int → List Order → List Trade
  | _, [] => []
  | q, b :: bs =>
      if q ≤ 0 then []
      else
        ⟨r, b.orderIndex.toNat, min q b.quantity, b.unitPrice, fee (min q b.quantity * b.unitPrice)⟩ ::
          referenceTrades fee r (q - min q b.quantity) bs

theorem referenceTrades_done {fee : Int → Int} {r : Nat} {q : Int} (h : q ≤ 0) :
    ∀ l, referenceTrades fee r q l = []
  | [] => rfl
  | _ :: _ => if_pos h

theorem served_of_none {side : OrderType} {x : Word} {limit : Int} {book : List Order}
    (h : getBest side book x limit = none) (n : Nat) : served side x limit n book = [] := by
  cases n with
  | zero => rfl
  | succ n => rw [served, h]

theorem served_of_some {side : OrderType} {x : Word} {limit : Int} {book : List Order} {b : Nat}
    {best : Order} (h : getBest side book x limit = some b) (hb : book[b]? = some best) (n : Nat) :
    served side x limit (n + 1) book =
      best :: served side x limit n (book.modify b closeOrder) := by
  rw [served, h]
  simp only [hb]

/-- The search in two books that look the same to it serves the same orders. -/
theorem served_congr {side : OrderType} (x : Word) (limit : Int) :
    ∀ (n : Nat) {ob ob' : List Order}, AgreeOn (openOf side) ob ob' →
      served side x limit n ob = served side x limit n ob' := by
  intro n
  induction n with
  | zero => exact fun _ => rfl
  | succ n ih =>
      intro ob ob' h
      rw [served, served, getBest_congr h]
      cases hg : getBest side ob' x limit with
      | none => rfl
      | some b =>
          obtain ⟨_, _, best, _, _, hb, _, _, hs, ho⟩ := getBest_spec hg
          have hb' : ob[b]? = some best := h.symm.getElem? hb (openOf_iff.mpr ⟨hs, ho⟩)
          simp only [hb, hb', ih (h.modify closeOrder hb' hb)]

/-! ## 3. The calls until NULL walk the list -/

section Sweeping

variable {side : OrderType} {r : Nat}

/-- After a match that uses up the order in the book, the search sees the book as it was, with
    that order closed. -/
theorem agreeOn_match (fee : Int → Int) {e : Exchange} {o best : Order} {b : Nat}
    (h : Match e side r b o best) (hq : best.quantity ≤ o.quantity) :
    AgreeOn (openOf side.other) (applyMatch fee e side r b o best).orderbook
      (e.orderbook.modify b closeOrder) := by
  have hclosed : (best.fill (matchAmount o best)).completed = true :=
    fill_completed.mpr (Or.inr (by unfold matchAmount; omega))
  have hb : AgreeOn (openOf side.other)
      (e.orderbook.modify b (Order.fill (matchAmount o best))) (e.orderbook.modify b closeOrder) := by
    refine agreeOn_hide e.orderbook (fun y hy => ?_) (fun y _ => ?_)
    · rw [h.inBook] at hy
      cases hy
      exact openOf_of_closed hclosed
    · exact openOf_of_closed rfl
  refine AgreeOn.trans (AgreeOn.symm (agreeOn_modify _ fun y hy => ?_)) hb
  rw [List.getElem?_modify_ne _ _ h.ne.symm, h.incoming] at hy
  cases hy
  have hne : o.orderType ≠ side.other := by
    rw [h.ownSide]
    exact side.other_ne.symm
  exact ⟨openOf_of_type hne, openOf_of_type (by rw [fill_orderType]; exact hne)⟩

theorem openCount_agree (fee : Int → Int) {e : Exchange} {o best : Order} {b : Nat}
    (h : Match e side r b o best) (hq : best.quantity ≤ o.quantity) :
    (applyMatch fee e side r b o best).orderbook.countP (openOf side.other) <
      e.orderbook.countP (openOf side.other) := by
  rw [List.countP_eq_length_filter, List.countP_eq_length_filter,
    filter_agree (fun _ hx => hx) (agreeOn_match fee h hq), ← List.countP_eq_length_filter,
    ← List.countP_eq_length_filter]
  exact countP_modify_lt (openOf_iff.mpr ⟨h.bookSide, h.bookOpen⟩) (by simp [openOf, closeOrder]) _ _
    h.inBook

/-- **The calls until NULL walk the list**, on every book. -/
theorem sweep_served (fee : Int → Int) : ∀ (n : Nat) {e : Exchange} {o : Order}, BookOk e →
    e.orderbook.countP (openOf side.other) ≤ n → e.orderbook[r]? = some o → o.orderType = side →
    (o.completed = true → o.quantity ≤ 0) →
    ∃ e', Sweep fee side (some r) e
      (referenceTrades fee r o.quantity (served side.other o.item o.unitPrice n e.orderbook)) e' := by
  intro n
  induction n with
  | zero =>
      intro e o hB hn hr hs _
      refine ⟨e, .stop ?_⟩
      rcases placeFor_cases fee hB side (some r) with ⟨h, _⟩ | ⟨r', b, o', best, hr', hM, _⟩
      · exact h
      · -- there is no open order of the other side
        have hnone := List.countP_eq_zero.mp (Nat.le_zero.mp hn) best (List.mem_of_getElem? hM.inBook)
        exact absurd (openOf_iff.mpr ⟨hM.bookSide, hM.bookOpen⟩) hnone
  | succ n ih =>
      intro e o hB hn hr hs hdone
      rcases placeFor_cases fee hB side (some r) with ⟨h, hno⟩ | ⟨r', b, o', best, hr', hM, h⟩
      · -- no trade: the order is closed, or the list is empty
        refine ⟨e, ?_⟩
        cases hc : o.completed with
        | true =>
            rw [referenceTrades_done (hdone hc)]
            exact .stop h
        | false =>
            rw [served, hno r o rfl hr hs hc]
            exact .stop h
      · cases hr'
        have ho : o' = o := Option.some.inj (hM.incoming.symm.trans hr)
        subst ho
        have hpos : ¬ o'.quantity ≤ 0 := by
          have := hB.positive r o' hM.incoming hM.isOpen
          omega
        have hindex : best.orderIndex.toNat = b := by
          rw [hB.index b best hM.inBook, Int.toNat_natCast]
        have hB₁ := bookOk_applyMatch fee hB hM
        have hr₁ : (applyMatch fee e side r b o' best).orderbook[r]? =
            some (o'.fill (matchAmount o' best)) := by
          rw [applyMatch_book hM, if_pos rfl]
        have hrest : ∃ e', Sweep fee side (some r) (applyMatch fee e side r b o' best)
            (referenceTrades fee r (o'.quantity - matchAmount o' best)
              (served side.other o'.item o'.unitPrice n (e.orderbook.modify b closeOrder))) e' := by
          by_cases hq : best.quantity ≤ o'.quantity
          · have hlt := openCount_agree fee hM hq
            have hih := ih hB₁ (by omega) hr₁ ((fill_orderType _ _).trans hs) fun hc => by
              rw [fill_quantity]
              rcases fill_completed.mp hc with h' | h'
              · rw [hM.isOpen] at h'
                cases h'
              · exact h'
            rw [fill_quantity, fill_item, fill_unitPrice,
              served_congr _ _ n (agreeOn_match fee hM hq)] at hih
            exact hih
          · -- the new order is used up by this trade, and the next call returns NULL
            have hzero : o'.quantity - matchAmount o' best ≤ 0 := by
              unfold matchAmount
              omega
            refine ⟨applyMatch fee e side r b o' best, ?_⟩
            rw [referenceTrades_done hzero]
            refine .stop ?_
            rcases placeFor_cases fee hB₁ side (some r) with ⟨h', _⟩ | ⟨r₂, _, o₂, _, hr₂, hM₂, _⟩
            · exact h'
            · cases hr₂
              have h2 := hM₂.isOpen
              rw [← Option.some.inj (hr₁.symm.trans hM₂.incoming),
                fill_completed.mpr (Or.inr hzero)] at h2
              cases h2
        obtain ⟨e', he'⟩ := hrest
        refine ⟨e', ?_⟩
        rw [served_of_some hM.found hM.inBook, referenceTrades, if_neg hpos, hindex]
        exact .more h he'

end Sweeping

/-! ## 4. Entering an order -/

/-- A new order is not seen by the search of the other side. -/
theorem agreeOn_append (e : Exchange) (o : Order) :
    AgreeOn (openOf o.orderType.other) e.orderbook (marketAddOrder e o).orderbook := by
  exact agreeOn_snoc e.orderbook (openOf_of_type o.orderType.other_ne.symm)

/-- An AMEND leaves the other side of the book alone. -/
theorem agreeOn_replace {e : Exchange} {t k : Nat} {o old : Order} (h : AmendEntry e t k o old) :
    AgreeOn (openOf o.orderType.other) e.orderbook (replaceOrder e t k o).orderbook := by
  have hplace : (marketAddOrder e o).orderbook[k]? = some old := by
    show (e.orderbook ++ [_])[k]? = _
    rw [List.getElem?_append_left (List.getElem?_eq_some_iff.mp h.place).1, h.place]
  refine (agreeOn_append e o).trans
    (agreeOn_modify (f := closeOrder) (marketAddOrder e o).orderbook fun y hy => ?_)
  rw [hplace] at hy
  cases hy
  refine ⟨openOf_of_type ?_, openOf_of_closed rfl⟩
  rw [← h.sameType]
  exact o.orderType.other_ne.symm

theorem served_mem {side : OrderType} {x : Word} {limit : Int} (n : Nat) {book : List Order}
    {b : Order} (h : b ∈ served side x limit n book) : b ∈ book ∧ openOf side b = true := by
  induction n generalizing book with
  | zero => exact absurd h List.not_mem_nil
  | succ n ih =>
      rw [served] at h
      cases hg : getBest side book x limit with
      | none =>
          rw [hg] at h
          exact absurd h List.not_mem_nil
      | some k =>
          obtain ⟨_, _, best, _, _, hk, _, _, hs, ho⟩ := getBest_spec hg
          simp only [hg, hk] at h
          rcases List.mem_cons.mp h with rfl | h
          · exact ⟨List.mem_of_getElem? hk, openOf_iff.mpr ⟨hs, ho⟩⟩
          · -- an open order of the changed book is one of the book
            obtain ⟨hb, hopen⟩ := ih h
            obtain ⟨j, hj⟩ := List.mem_iff_getElem?.mp hb
            refine ⟨?_, hopen⟩
            by_cases hkj : k = j
            · subst hkj
              rw [List.getElem?_modify_eq, hk] at hj
              cases hj
              rw [openOf_of_closed rfl] at hopen
              cases hopen
            · rw [List.getElem?_modify_ne _ _ hkj] at hj
              exact List.mem_of_getElem? hj

end SysProg.Pe
