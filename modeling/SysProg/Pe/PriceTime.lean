/-
  File:      SysProg/Pe/PriceTime.lean
  Subject:   MATCHING IS PRICE-TIME PRIORITY.

  The reference sorts the open orders of the other side that meet the limit
  by price and then by index, once, and walks them greedily. The code
  filters, sorts and looks up again for every single trade. On a book whose
  open orders have distinct (trader, id) both make the same trades.

  * `queue` -- the reference (`referenceTrades` is the walk);
  * `getBest_queue` -- the search returns the head of the queue;
  * `served_queue` -- so the orders served are the queue;
  * `placeOrder_priceTime` -- the theorem, for a new order of either side.
-/
import Mathlib.Data.List.Sort
import SysProg.Pe.Filled
import SysProg.Pe.Served

namespace SysProg.Pe

open Lib

/-! ## 1. The reference matcher -/

/-- Price first, then time. -/
def Precedes (side : OrderType) (a b : Order) : Prop :=
  rank side a.unitPrice < rank side b.unitPrice ∨
    rank side a.unitPrice = rank side b.unitPrice ∧ a.orderIndex ≤ b.orderIndex

instance (side : OrderType) : DecidableRel (Precedes side) := fun _ _ =>
  inferInstanceAs (Decidable (_ ∨ _ ∧ _))

instance (side : OrderType) : Std.Total (Precedes side) where
  total a b := by
    unfold Precedes
    omega

instance (side : OrderType) : IsTrans Order (Precedes side) where
  trans a b c h₁ h₂ := by
    unfold Precedes at h₁ h₂ ⊢
    omega

/-- An open order of one side for product `x` that meets the limit. -/
def Crossing (side : OrderType) (x : Word) (limit : Int) (b : Order) : Prop :=
  Resting side x b ∧ rank side b.unitPrice ≤ rank side limit

instance (side : OrderType) (x : Word) (limit : Int) (b : Order) :
    Decidable (Crossing side x limit b) := inferInstanceAs (Decidable (_ ∧ _))

/-- The orders a new order of the other side can trade with, best first. -/
def queue (side : OrderType) (book : List Order) (x : Word) (limit : Int) : List Order :=
  (book.filter fun b => Crossing side x limit b).insertionSort (Precedes side)

/-! ## 2. The search returns the head of the queue -/

/-- `l` lists the crossing orders of the book, best first, each once. -/
structure Queued (side : OrderType) (book : List Order) (x : Word) (limit : Int) (l : List Order) :
    Prop where
  sorted : l.Pairwise (Precedes side)
  nodup : l.Nodup
  mem : ∀ b, b ∈ l ↔ b ∈ book ∧ Crossing side x limit b

/-- Every order stands at its index. -/
def Indexed (book : List Order) : Prop :=
  ∀ (k : Nat) (o : Order), book[k]? = some o → o.orderIndex = k

theorem nodup_book {book : List Order} (hI : Indexed book) : book.Nodup := by
  refine List.nodup_iff_getElem?_ne_getElem?.mpr fun i j hij hj h => ?_
  have hi := List.getElem?_eq_getElem (Nat.lt_trans hij hj)
  have h1 := hI i _ hi
  rw [h] at hi
  have h2 := hI j _ hi
  omega

theorem queued_queue {book : List Order} (hI : Indexed book) (side : OrderType) (x : Word)
    (limit : Int) : Queued side book x limit (queue side book x limit) where
  sorted := List.pairwise_insertionSort _ _
  nodup := (List.perm_insertionSort _ _).nodup_iff.mpr ((nodup_book hI).filter _)
  mem b := by
    unfold queue
    rw [List.mem_insertionSort, List.mem_filter, decide_eq_true_eq]

/-- Another book with the same crossing orders has the same queue. -/
theorem Queued.congr {side : OrderType} {ob ob' : List Order} {x : Word} {limit : Int}
    {l : List Order} (h : Queued side ob x limit l)
    (hmem : ∀ b, Crossing side x limit b → (b ∈ ob ↔ b ∈ ob')) : Queued side ob' x limit l where
  sorted := h.sorted
  nodup := h.nodup
  mem b := (h.mem b).trans (and_congr_left (hmem b))

/-- No two open orders of the side share trader and id. -/
def KeysDistinct (side : OrderType) (book : List Order) : Prop :=
  ∀ (j k : Nat) (a b : Order), book[j]? = some a → book[k]? = some b →
    a.orderType = side → b.orderType = side → a.completed = false → b.completed = false →
    SameKey a b → j = k

/-- A book that looks the same to the search has the same queue. -/
theorem Queued.agree {side : OrderType} {ob ob' : List Order} {x : Word} {limit : Int}
    {l : List Order} (h : Queued side ob x limit l) (ha : AgreeOn (openOf side) ob ob') :
    Queued side ob' x limit l := by
  refine h.congr fun b hb => ?_
  have hopen : openOf side b = true := openOf_iff.mpr ⟨hb.1.1, hb.1.2.2⟩
  refine ⟨fun hm => ?_, fun hm => ?_⟩
  · obtain ⟨k, hk⟩ := List.mem_iff_getElem?.mp hm
    exact List.mem_of_getElem? (ha.getElem? hk hopen)
  · obtain ⟨k, hk⟩ := List.mem_iff_getElem?.mp hm
    exact List.mem_of_getElem? (ha.symm.getElem? hk hopen)

section Queues

variable {book : List Order} {side : OrderType} {x : Word} {limit : Int}

theorem getElem?_index (hI : Indexed book) {b : Order} (hb : b ∈ book) :
    book[b.orderIndex.toNat]? = some b := by
  obtain ⟨k, hk⟩ := List.mem_iff_getElem?.mp hb
  rw [hI k b hk]
  exact hk

/-- **The search returns the head of the queue**: it has the best price, it is the earliest with
    that price, and looking it up again by trader and id finds it and nothing else. -/
theorem getBest_queue {b : Order} {bs : List Order} (hI : Indexed book)
    (hK : KeysDistinct side book) (hQ : Queued side book x limit (b :: bs)) :
    getBest side book x limit = some b.orderIndex.toNat := by
  obtain ⟨hb, hrest, hlim⟩ := (hQ.mem b).mp List.mem_cons_self
  have hbi := getElem?_index hI hb
  cases hg : getBest side book x limit with
  | none => exact absurd hlim (getBest_eq_none.mp hg _ b hbi hrest)
  | some k =>
      obtain ⟨i, c, best, hc, hcl, hk, _, hkey, hs, ho⟩ := getBest_spec hg
      have hki : k = i :=
        hK k i best c hk hc.place hs hc.rests.1 ho hc.rests.2.2 hkey
      have hcQ : c ∈ b :: bs := (hQ.mem c).mpr ⟨List.mem_of_getElem? hc.place, hc.rests, hcl⟩
      have hci := hI i c hc.place
      rcases List.mem_cons.mp hcQ with rfl | hcs
      · rw [hki, hci, Int.toNat_natCast]
      · have hpre := (List.pairwise_cons.mp hQ.sorted).1 c hcs
        have hle := hc.least _ b hbi hrest
        have hnlt : ¬ b.orderIndex.toNat < i := fun hlt => by
          have h := hc.first _ b hlt hbi hrest
          unfold Precedes at hpre
          omega
        have hbk := hI _ b hbi
        unfold Precedes at hpre
        rw [hki]
        refine congrArg some ?_
        omega

/-! ## 3. The orders served are the queue -/

theorem indexed_close (hI : Indexed book) (k : Nat) : Indexed (book.modify k closeOrder) := by
  intro j o ho
  obtain ⟨o₀, ho₀, ⟨_, rfl⟩ | ⟨_, rfl⟩⟩ := getElem?_modify_of ho
  · exact hI j o ho₀
  · exact hI j o₀ ho₀

theorem keysDistinct_close (hK : KeysDistinct side book) (k : Nat) :
    KeysDistinct side (book.modify k closeOrder) := by
  intro i j a b ha hb hta htb hoa hob hkey
  obtain ⟨a₀, ha₀, ⟨_, rfl⟩ | ⟨_, rfl⟩⟩ := getElem?_modify_of ha
  · obtain ⟨b₀, hb₀, ⟨_, rfl⟩ | ⟨_, rfl⟩⟩ := getElem?_modify_of hb
    · exact hK i j a b ha₀ hb₀ hta htb hoa hob hkey
    · cases hob
  · cases hoa

/-- Once the head of the queue is closed, the rest of the queue is the queue. -/
theorem queued_tail {b : Order} {bs : List Order} (hI : Indexed book)
    (hQ : Queued side book x limit (b :: bs)) :
    Queued side (book.modify b.orderIndex.toNat closeOrder) x limit bs where
  sorted := (List.pairwise_cons.mp hQ.sorted).2
  nodup := (List.nodup_cons.mp hQ.nodup).2
  mem c := by
    have hnot := (List.nodup_cons.mp hQ.nodup).1
    have hbi := getElem?_index hI ((hQ.mem b).mp List.mem_cons_self).1
    refine ⟨fun hc => ?_, ?_⟩
    · obtain ⟨hcb, hcross⟩ := (hQ.mem c).mp (List.mem_cons_of_mem _ hc)
      have hci := getElem?_index hI hcb
      refine ⟨List.mem_of_getElem? (i := c.orderIndex.toNat) ?_, hcross⟩
      rw [List.getElem?_modify_ne]
      · exact hci
      · intro hi
        rw [← hi, hbi] at hci
        cases hci
        exact hnot hc
    · intro h
      obtain ⟨hc, hcross⟩ := h
      obtain ⟨k, hk⟩ := List.mem_iff_getElem?.mp hc
      obtain ⟨c₀, hc₀, ⟨hne, rfl⟩ | ⟨_, rfl⟩⟩ := getElem?_modify_of hk
      · rcases List.mem_cons.mp ((hQ.mem c).mpr ⟨List.mem_of_getElem? hc₀, hcross⟩) with rfl | hc'
        · have hi := hI k c hc₀
          exact absurd (by omega) hne
        · exact hc'
      · exact absurd hcross.1.2.2 (by simp [closeOrder])

/-- **The orders served are the queue.** -/
theorem served_queue : ∀ (l : List Order) (n : Nat) {book : List Order}, l.length ≤ n →
    Indexed book → KeysDistinct side book → Queued side book x limit l →
    served side x limit n book = l
  | [], 0, _, _, _, _, _ => rfl
  | [], n + 1, book, _, _, _, hQ => by
      have hnone : getBest side book x limit = none := by
        refine getBest_eq_none.mpr fun j o ho hr hle => ?_
        exact List.not_mem_nil ((hQ.mem o).mpr ⟨List.mem_of_getElem? ho, hr, hle⟩)
      rw [served, hnone]
  | b :: bs, n + 1, book, hn, hI, hK, hQ => by
      have hbi := getElem?_index hI ((hQ.mem b).mp List.mem_cons_self).1
      have ih := served_queue bs n (Nat.le_of_succ_le_succ hn)
        (indexed_close hI b.orderIndex.toNat) (keysDistinct_close hK _) (queued_tail hI hQ)
      rw [served, getBest_queue hI hK hQ]
      simp only [hbi, ih]

theorem queue_length_le (side : OrderType) (book : List Order) (x : Word) (limit : Int) :
    (queue side book x limit).length ≤ book.length := by
  unfold queue
  rw [List.length_insertionSort]
  exact List.length_filter_le _ _

end Queues

/-! ## 4. A new order -/

/-- No two open orders of the book share trader and id. -/
def OpenKeysDistinct (book : List Order) : Prop :=
  ∀ (j k : Nat) (a b : Order), book[j]? = some a → book[k]? = some b →
    a.completed = false → b.completed = false → SameKey a b → j = k

/-- **Matching is the reference price-time matcher.** Take a market whose open orders have
    distinct (trader, id) and append a new order of either side. Calling `placeBuyOrder`
    (`placeSellOrder`) with it until NULL ends, in one way only; the trades are those of the greedy
    walk over the sorted queue, and they are what the log gains. Every order, the new one included,
    has lost what it traded and is otherwise the same; it is closed exactly if it was before or
    nothing is left of it, and without a trade it is unchanged. -/
theorem placeOrder_priceTime (fee : Int → Int) {e : Exchange} {t : Nat} {o : Order} (hB : BookOk e)
    (hK : OpenKeysDistinct e.orderbook) (hF : Fresh e t o) :
    let r := e.orderbook.length
    let ts := referenceTrades fee r o.quantity
      (queue o.orderType.other e.orderbook o.item o.unitPrice)
    ∃ e', Sweep fee o.orderType (some r) (marketAddOrder e o) ts e' ∧
      (∀ ts' e'', Sweep fee o.orderType (some r) (marketAddOrder e o) ts' e'' → ts' = ts ∧ e'' = e') ∧
      e'.completedTrades = e.completedTrades ++ ts ∧
      e'.orderbook.length = (marketAddOrder e o).orderbook.length ∧
      ∀ (k : Nat) (x : Order), (marketAddOrder e o).orderbook[k]? = some x →
        ∃ x', e'.orderbook[k]? = some x' ∧
          x' = { x with quantity := x.quantity - tradedQuantity k ts, completed := x'.completed } ∧
          (x'.completed = true ↔ x.completed = true ∨ x'.quantity = 0) ∧
          ((∀ y ∈ ts, y.involves k = false) → x' = x) := by
  intro r ts
  have hB₁ : BookOk (marketAddOrder e o) := bookOk_append hB hF
  have hnew : (marketAddOrder e o).orderbook[r]? = some (placed e o) := by
    simp [marketAddOrder, placed, r]
  -- the orders served from the book with the new order are the queue of the book without it
  have hserved : served o.orderType.other o.item o.unitPrice (marketAddOrder e o).orderbook.length
      (marketAddOrder e o).orderbook = queue o.orderType.other e.orderbook o.item o.unitPrice := by
    rw [← served_congr _ _ _ (agreeOn_append e o)]
    refine served_queue _ _ ?_ hB.index (fun j k a b ha hb _ _ hoa hob => hK j k a b ha hb hoa hob)
      (queued_queue hB.index _ _ _)
    refine (queue_length_le _ _ _ _).trans ?_
    show _ ≤ (e.orderbook ++ [_]).length
    rw [List.length_append]
    exact Nat.le_add_right _ _
  obtain ⟨e', he'⟩ := sweep_served fee _ hB₁ List.countP_le_length hnew rfl
    (fun hc => by rw [show (placed e o).completed = false from hF.isOpen] at hc; cases hc)
  rw [show (placed e o).item = o.item from rfl, show (placed e o).unitPrice = o.unitPrice from rfl,
    show (placed e o).orderType = o.orderType from rfl, hserved] at he'
  obtain ⟨hB', hlog, hlen, hdrawn⟩ := sweep_drawn he' hB₁
  refine ⟨e', he', fun ts' e'' h => repeats_unique h he', hlog, hlen, fun k x hx => ?_⟩
  obtain ⟨x', hx', hd⟩ := hdrawn k x hx
  refine ⟨x', hx', ?_, ⟨hd.closed, fun h => ?_⟩, fun hno => ?_⟩
  · have hq : x'.quantity = x.quantity - tradedQuantity k ts := by
      have := hd.quantity
      show x'.quantity = x.quantity - tradedQuantity k (referenceTrades fee r (placed e o).quantity _)
      omega
    rw [← hq, ← hd.orderType, ← hd.item, ← hd.unitPrice, ← hd.trader, ← hd.orderId, ← hd.orderIndex]
  · rcases h with h | h
    · rw [hd.frozen h]
      exact h
    · by_contra hopen
      have := hB'.positive k x' hx' (Bool.eq_false_iff.mpr hopen)
      omega
  · have hz : tradedQuantity k (referenceTrades fee r (placed e o).quantity
        (queue o.orderType.other e.orderbook o.item o.unitPrice)) = 0 := tradedQuantity_eq_zero hno
    rw [hz] at hd
    exact hd.eq (hB₁.positive k x hx)

/-- Two sellers wait; the later one is cheaper. -/
def twoSellers : Exchange where
  products := ["GPU".toList]
  traders := [instTrader 10 1, instTrader 11 1]
  orderbook := [⟨.SELL, "GPU".toList, 5, 100, 0, 0, 0, false⟩, ⟨.SELL, "GPU".toList, 3, 90, 0, 1, 1, false⟩]
  completedTrades := []
  transactionFee := 0

theorem bookOk_twoSellers : BookOk twoSellers := by
  have hbook : ∀ (k : Nat) (o : Order), twoSellers.orderbook[k]? = some o →
      o.orderIndex = k ∧ o.trader < 2 ∧ o.item = "GPU".toList ∧ 1 ≤ o.quantity := by
    intro k o h
    match k, h with
    | 0, h => cases h; decide
    | 1, h => cases h; decide
  exact ⟨fun k o h => (hbook k o h).1, fun k o h => (hbook k o h).2.1,
    fun k o h => by rw [(hbook k o h).2.2.1]; exact List.mem_cons_self,
    fun k o h _ => (hbook k o h).2.2.2⟩

theorem keysDistinct_twoSellers : OpenKeysDistinct twoSellers.orderbook := by
  intro j k a b ha hb _ _ hkey
  match j, k, ha, hb with
  | 0, 0, _, _ => rfl
  | 1, 1, _, _ => rfl
  | 0, 1, ha, hb => cases ha; cases hb; exact absurd hkey.2 (by decide)
  | 1, 0, ha, hb => cases ha; cases hb; exact absurd hkey.2 (by decide)

/-- A buyer of 6 takes the 3 at 90 and then 3 of the 5 at 100. -/
theorem placeOrder_priceTime_twoSellers :
    BookOk twoSellers ∧ OpenKeysDistinct twoSellers.orderbook ∧
    ∃ e', Sweep (· / 100) .BUY (some 2)
      (marketAddOrder twoSellers ⟨.BUY, "GPU".toList, 6, 100, 1, 0, -1, false⟩)
      [⟨2, 1, 3, 90, 2⟩, ⟨2, 0, 3, 100, 3⟩] e' := by
  have hF : Fresh twoSellers 1 ⟨.BUY, "GPU".toList, 6, 100, 1, 0, -1, false⟩ :=
    ⟨rfl, by decide, List.mem_cons_self, by decide, rfl⟩
  obtain ⟨e', h, _⟩ := placeOrder_priceTime (· / 100) bookOk_twoSellers keysDistinct_twoSellers hF
  have hts : referenceTrades (· / 100) 2 6
      (queue .SELL twoSellers.orderbook "GPU".toList 100) = [⟨2, 1, 3, 90, 2⟩, ⟨2, 0, 3, 100, 3⟩] := by
    decide
  exact ⟨bookOk_twoSellers, keysDistinct_twoSellers, e', hts ▸ h⟩

end SysProg.Pe
