/-
  File:      SysProg/Pe/Print.lean
  Subject:   THE PRINTED ORDER BOOK (`printOrderByProduct` of pe_market.c).

  The number of levels comes from a scan in book order, the lines from the
  runs of equal prices in the sorted array. Both are about the distinct prices
  of the open orders of the product: its levels (`IsLevels`). The sum of a
  level is kept in an `int`, with wrap-around here; the counts are those of
  orders, of which the market has no more than an `int` can count.

  * `levelLoop_eq` -- the scan counts the distinct prices;
  * `printLevels_eq` -- the lines of a sorted array are one for each level,
    with the low 32 bits of its sum;
  * `printed_iff` -- the print is the aggregation of the book exactly if the
    sum of every level is an `int`.
-/
import Mathlib.Algebra.Order.BigOperators.Group.List
import Mathlib.Algebra.Order.Ring.Int
import SysProg.Lib.Lists
import SysProg.Pe.Message
import SysProg.Pe.Search

namespace SysProg.Pe

open Lib

/-! ## 1. The formats -/

def logPrefix : List Char := "[PEX]".toList

/-- `"%s\tProduct: %s; Buy levels: %d; Sell levels: %d\n"` -/
def productText (product : Word) (buyLevel sellLevel : Nat) : List Char :=
  logPrefix ++ "\tProduct: ".toList ++ product ++ "; Buy levels: ".toList ++ itoa buyLevel ++
    "; Sell levels: ".toList ++ itoa sellLevel ++ ['\n']

/-- `"%s\t\tSELL %d @ $%ld (1 order)\n"`, and the same with BUY. -/
def oneOrderText (side : OrderType) (quantity unitPrice : Int) : List Char :=
  logPrefix ++ "\t\t".toList ++ typeText side ++ ' ' :: itoa quantity ++ " @ $".toList ++
    itoa unitPrice ++ " (1 order)\n".toList

/-- `"%s\t\tSELL %d @ $%ld (%d orders)\n"`, and the same with BUY. -/
def ordersText (side : OrderType) (quantity unitPrice : Int) (count : Nat) : List Char :=
  logPrefix ++ "\t\t".toList ++ typeText side ++ ' ' :: itoa quantity ++ " @ $".toList ++
    itoa unitPrice ++ " (".toList ++ itoa count ++ " orders)\n".toList

/-! ## 2. `printOrderByProduct` -/

/-- The loop that collects the open orders of one side and counts their prices: a price is new
    if none of the orders collected before has it. -/
def levelLoop (side : OrderType) (product : Word) : List Order → List Order × Nat → List Order × Nat
  | [], found => found
  | o :: orderBook, (matched, level) =>
      if o.item = product && o.orderType = side && !o.completed then
        levelLoop side product orderBook (matched ++ [o],
          if matched.any fun m => m.unitPrice = o.unitPrice then level else level + 1)
      else levelLoop side product orderBook (matched, level)

/-- The line printed at the last order `o` of a run of equal prices; `count` and `total` are what
    the orders before it in the run have left in the two counters. -/
def runText (side : OrderType) (o : Order) (count : Nat) (total : Int) : List Char :=
  if count = 0 ∧ total = 0 then oneOrderText side o.quantity o.unitPrice
  else ordersText side (toInt32 (total + o.quantity)) o.unitPrice (count + 1)

/-- The loop over the sorted orders, and the last one behind it. -/
def printLevels (side : OrderType) : List Order → Nat → Int → List (List Char)
  | [], _, _ => []
  | [o], count, total => [runText side o count total]
  | o :: o' :: os, count, total =>
      if o.unitPrice = o'.unitPrice then
        printLevels side (o' :: os) (count + 1) (toInt32 (total + o.quantity))
      else runText side o count total :: printLevels side (o' :: os) 0 0

def printOrderByProduct (orderBook : List Order) (product : Word) : List Char :=
  let sells := levelLoop .SELL product orderBook ([], 0)
  let buys := levelLoop .BUY product orderBook ([], 0)
  productText product buys.2 sells.2 ++
    (printLevels .SELL (orderSortReverse sells.1) 0 0).flatten ++
    (printLevels .BUY (orderSortReverse buys.1) 0 0).flatten

/-! ## 3. The aggregation of a book -/

def atPrice (os : List Order) (price : Int) : List Order :=
  os.filter fun o => o.unitPrice = price

def totalQuantity (os : List Order) : Int := (os.map (·.quantity)).sum

/-- The open orders of one side for the product at a price. -/
def levelOrders (side : OrderType) (orderBook : List Order) (product : Word) (price : Int) :
    List Order :=
  atPrice (matchedOrders side orderBook product) price

/-- A line for `count` orders. -/
def levelText (side : OrderType) (quantity unitPrice : Int) (count : Nat) : List Char :=
  if count = 1 then oneOrderText side quantity unitPrice
  else ordersText side quantity unitPrice count

/-- The line of a level: the exact sum, and the number of its orders. -/
def levelLine (side : OrderType) (orderBook : List Order) (product : Word) (price : Int) :
    List Char :=
  levelText side (totalQuantity (levelOrders side orderBook product price)) price
    (levelOrders side orderBook product price).length

/-- **The aggregation of the open orders of a product**: the numbers of distinct prices, a line for
    every sell price from the greatest to the least, and a line for every buy price. -/
def Aggregates (orderBook : List Order) (product : Word) (text : List Char) : Prop :=
  ∃ sells buys : List Int,
    IsLevels (·.unitPrice) (matchedOrders .SELL orderBook product) sells ∧
    IsLevels (·.unitPrice) (matchedOrders .BUY orderBook product) buys ∧
    text = productText product buys.length sells.length ++
      (sells.map (levelLine .SELL orderBook product)).flatten ++
      (buys.map (levelLine .BUY orderBook product)).flatten

/-! ## 4. The scan -/

section Scan

variable {side : OrderType} {product : Word} {orderBook : List Order}

/-- The prices collected, as a set. -/
def priceSet (os : List Order) : Finset Int := (os.map (·.unitPrice)).toFinset

theorem priceSet_concat (os : List Order) (o : Order) :
    (priceSet (os ++ [o])).card =
      if os.any (fun m => m.unitPrice = o.unitPrice) then (priceSet os).card
      else (priceSet os).card + 1 := by
  have hset : priceSet (os ++ [o]) = insert o.unitPrice (priceSet os) := by
    unfold priceSet
    ext p
    simp
  have hmem : os.any (fun m => m.unitPrice = o.unitPrice) = true ↔ o.unitPrice ∈ priceSet os := by
    simp [priceSet]
  rw [hset]
  split
  · rename_i h
    rw [Finset.insert_eq_of_mem (hmem.mp h)]
  · rename_i h
    exact Finset.card_insert_of_notMem fun hm => h (hmem.mpr hm)

/-- **The scan collects the open orders and counts their distinct prices.** -/
theorem levelLoop_eq (matched : List Order) :
    levelLoop side product orderBook (matched, (priceSet matched).card) =
      (matched ++ matchedOrders side orderBook product,
        (priceSet (matched ++ matchedOrders side orderBook product)).card) := by
  induction orderBook generalizing matched with
  | nil => simp [levelLoop, matchedOrders]
  | cons o orderBook ih =>
      unfold levelLoop matchedOrders
      rw [List.filter_cons]
      split
      · have h := ih (matched ++ [o])
        rw [← priceSet_concat, h, List.append_assoc]
        rfl
      · exact ih matched

end Scan

/-! ## 5. The lines -/

/-- The quantity is a positive `int`. -/
def Positive (o : Order) : Prop := 1 ≤ o.quantity ∧ o.quantity < 2 ^ 31

/-- The line the loop prints for a level of the orders `os`. -/
def wrappedLine (side : OrderType) (os : List Order) (price : Int) : List Char :=
  levelText side (toInt32 (totalQuantity (atPrice os price))) price (atPrice os price).length

section Lines

variable {side : OrderType}

theorem totalQuantity_concat (os : List Order) (o : Order) :
    totalQuantity (os ++ [o]) = totalQuantity os + o.quantity := by
  simp [totalQuantity]

/-- The end of a run, `acc` being the orders before it. -/
theorem runText_eq (acc : List Order) {o : Order} (ho : Positive o) :
    runText side o acc.length (toInt32 (totalQuantity acc)) =
      levelText side (toInt32 (totalQuantity (acc ++ [o]))) o.unitPrice (acc ++ [o]).length := by
  unfold runText levelText
  rw [totalQuantity_concat, toInt32_add, List.length_append, List.length_singleton]
  cases acc with
  | nil =>
      have hq : toInt32 o.quantity = o.quantity :=
        (toInt32_eq_iff (by have := ho.1; omega)).mpr ho.2
      have h0 : totalQuantity [] = 0 := rfl
      rw [h0, Int.zero_add, hq]
      rfl
  | cons a acc => rw [if_neg (fun h => by simp at h), if_neg (by simp)]

/-- A run of equal prices before cheaper orders. -/
theorem atPrice_run {acc rest : List Order} {o : Order}
    (hacc : ∀ a ∈ acc, a.unitPrice = o.unitPrice) (hrest : ∀ b ∈ rest, b.unitPrice < o.unitPrice) :
    atPrice (acc ++ o :: rest) o.unitPrice = acc ++ [o] := by
  unfold atPrice
  rw [List.filter_append, List.filter_cons, if_pos (by simp),
    List.filter_eq_self.mpr fun a ha => by simpa using hacc a ha,
    List.filter_eq_nil_iff.mpr fun b hb => by simpa using (hrest b hb).ne]

/-- The cheaper levels are those of the rest. -/
theorem atPrice_below {acc rest : List Order} {o : Order} {price : Int}
    (hacc : ∀ a ∈ acc, a.unitPrice = o.unitPrice) (hp : price < o.unitPrice) :
    atPrice (acc ++ o :: rest) price = atPrice rest price := by
  unfold atPrice
  rw [List.filter_append, List.filter_cons, if_neg (by simpa using hp.ne'),
    List.filter_eq_nil_iff.mpr fun a ha => by simpa [hacc a ha] using hp.ne', List.nil_append]

/-- **The lines of a sorted array**: one for each of its levels. `acc` are the orders of the
    first run that the loop has passed already. -/
theorem printLevels_eq (side : OrderType) : ∀ (l acc : List Order),
    l.Pairwise (fun a b => b.unitPrice ≤ a.unitPrice) →
    (∀ a ∈ acc, ∀ o ∈ l.head?, a.unitPrice = o.unitPrice) → (∀ o ∈ l, Positive o) →
    ∃ ks, IsLevels (·.unitPrice) l ks ∧
      printLevels side l acc.length (toInt32 (totalQuantity acc)) =
        ks.map (wrappedLine side (acc ++ l))
  | [], _, _, _, _ => ⟨[], isLevels_nil, rfl⟩
  | [o], acc, _, hacc, hpos => by
      have hrun : atPrice (acc ++ [o]) o.unitPrice = acc ++ [o] :=
        atPrice_run (fun a ha => hacc a ha o rfl) fun b hb => absurd hb List.not_mem_nil
      refine ⟨[o.unitPrice], isLevels_singleton o, ?_⟩
      rw [printLevels, runText_eq acc (hpos o List.mem_cons_self), List.map_singleton, wrappedLine,
        hrun]
  | o :: o' :: os, acc, hs, hacc, hpos => by
      obtain ⟨hle, hs'⟩ := List.pairwise_cons.mp hs
      have hacc' : ∀ a ∈ acc, a.unitPrice = o.unitPrice := fun a ha => hacc a ha o rfl
      have hpos' : ∀ x ∈ o' :: os, Positive x := fun x hx => hpos x (List.mem_cons_of_mem _ hx)
      unfold printLevels
      by_cases heq : o.unitPrice = o'.unitPrice
      · -- the run goes on
        rw [if_pos heq]
        have hgrow : ∀ a ∈ acc ++ [o], ∀ x ∈ (o' :: os).head?, a.unitPrice = x.unitPrice := by
          intro a ha x hx
          cases hx
          rcases List.mem_append.mp ha with ha | ha
          · rw [hacc' a ha, heq]
          · rw [List.mem_singleton.mp ha, heq]
        obtain ⟨ks, hks, hlines⟩ := printLevels_eq side (o' :: os) (acc ++ [o]) hs' hgrow hpos'
        rw [totalQuantity_concat, List.length_append, List.length_singleton, List.append_assoc,
          List.singleton_append] at hlines
        refine ⟨ks, hks.cons_same heq, ?_⟩
        rw [toInt32_add]
        exact hlines
      · -- the run ends: everything behind it is cheaper
        rw [if_neg heq]
        have hlt : ∀ b ∈ o' :: os, b.unitPrice < o.unitPrice := by
          intro b hb
          have hb' : b.unitPrice ≤ o'.unitPrice := by
            rcases List.mem_cons.mp hb with rfl | hb
            · exact Int.le_refl _
            · exact (List.pairwise_cons.mp hs').1 b hb
          have := hle o' List.mem_cons_self
          omega
        obtain ⟨ks, hks, hlines⟩ := printLevels_eq side (o' :: os) [] hs'
          (fun a ha => absurd ha List.not_mem_nil) hpos'
        refine ⟨o.unitPrice :: ks, hks.cons_above hlt, ?_⟩
        rw [List.map_cons, runText_eq acc (hpos o List.mem_cons_self), wrappedLine,
          atPrice_run hacc' hlt]
        refine congrArg _ (hlines.trans (List.map_congr_left fun p hp => ?_))
        obtain ⟨b, hb, rfl⟩ := (hks.members p).mp hp
        unfold wrappedLine
        rw [atPrice_below hacc' (hlt b hb), List.nil_append]

end Lines

/-! ## 6. The texts determine their numbers -/

section Texts

variable {side : OrderType} {price : Int} {count : Nat}

theorem word_inj {pre r r' : List Char} {q q' : Int}
    (h : pre ++ ' ' :: itoa q ++ ' ' :: r = pre ++ ' ' :: itoa q' ++ ' ' :: r') : q = q' := by
  rw [List.append_assoc, List.append_assoc] at h
  have htail := (List.cons.inj (List.append_cancel_left h)).2
  have hword : ∀ (i : Int) (r : List Char), (itoa i ++ ' ' :: r).takeWhile (· ≠ ' ') = itoa i :=
    fun i r => takeWhile_append_stop (all_ne (plain_itoa i).1.2) (by simp)
  refine itoa_injective ?_
  rw [← hword q r, ← hword q' r']
  exact congrArg _ htail

/-- What stands behind the quantity. -/
def levelTail (price : Int) (count : Nat) : List Char :=
  "@ $".toList ++ itoa price ++
    if count = 1 then " (1 order)\n".toList else " (".toList ++ itoa count ++ " orders)\n".toList

theorem levelText_eq (side : OrderType) (q price : Int) (count : Nat) :
    levelText side q price count =
      logPrefix ++ "\t\t".toList ++ typeText side ++ ' ' :: itoa q ++ ' ' :: levelTail price count := by
  unfold levelText levelTail oneOrderText ordersText
  split
  · simp
  · simp

theorem levelText_inj {q q' : Int}
    (h : levelText side q price count = levelText side q' price count) : q = q' := by
  rw [levelText_eq, levelText_eq] at h
  exact word_inj h

/-- A line starts with its only `[`. -/
theorem levelText_block (q : Int) : IsBlock (fun c => decide (c ≠ '[')) (levelText side q price count) := by
  have hd : ∀ i : Int, '[' ∉ itoa i := notMem_itoa (by decide) (by decide)
  have hs : '[' ∉ typeText side := by cases side <;> decide
  have ht : '[' ∉ levelTail price count := by
    unfold levelTail
    split <;> simp [hd]
  refine ⟨'[', "PEX]\t\t".toList ++ typeText side ++ ' ' :: itoa q ++ ' ' :: levelTail price count, ?_,
    by decide, all_ne ?_⟩
  · rw [levelText_eq]
    rfl
  · simp [hs, hd, ht]

end Texts

/-! ## 7. The print -/

section Print

variable {orderBook : List Order} {product : Word}

/-- Sorting moves the orders of a level, but leaves them its orders. -/
theorem wrappedLine_perm {side : OrderType} {os os' : List Order} (h : os.Perm os') :
    wrappedLine side os = wrappedLine side os' := by
  funext price
  have hlevel : (atPrice os price).Perm (atPrice os' price) := h.filter _
  have htotal : totalQuantity (atPrice os price) = totalQuantity (atPrice os' price) :=
    (hlevel.map _).sum_eq
  unfold wrappedLine
  rw [htotal, hlevel.length_eq]

/-- What is printed for one side. -/
theorem printLevels_matched (side : OrderType)
    (hpos : ∀ o ∈ matchedOrders side orderBook product, Positive o) :
    ∃ ks, IsLevels (·.unitPrice) (matchedOrders side orderBook product) ks ∧
      printLevels side (orderSortReverse (matchedOrders side orderBook product)) 0 0 =
        ks.map (wrappedLine side (matchedOrders side orderBook product)) := by
  have hperm := exchangeSort_perm (fun x y : Order => decide (x.unitPrice < y.unitPrice))
    (matchedOrders side orderBook product)
  obtain ⟨ks, hks, hlines⟩ := printLevels_eq side _ []
    (orderSortReverse_sorted (matchedOrders side orderBook product))
    (fun a ha => absurd ha List.not_mem_nil) fun o ho => hpos o (hperm.mem_iff.mp ho)
  refine ⟨ks, hks.perm hperm, ?_⟩
  rw [← wrappedLine_perm hperm]
  exact hlines

/-- The scan of one side. -/
theorem levelLoop_matched {side : OrderType} {ks : List Int}
    (hks : IsLevels (·.unitPrice) (matchedOrders side orderBook product) ks) :
    levelLoop side product orderBook ([], 0) = (matchedOrders side orderBook product, ks.length) := by
  rw [hks.length_eq]
  exact levelLoop_eq []

/-- **What is printed**: the aggregation, up to the low 32 bits of the sums. -/
theorem printOrderByProduct_eq
    (hpos : ∀ side, ∀ o ∈ matchedOrders side orderBook product, Positive o) :
    ∃ sells buys, IsLevels (·.unitPrice) (matchedOrders .SELL orderBook product) sells ∧
      IsLevels (·.unitPrice) (matchedOrders .BUY orderBook product) buys ∧
      printOrderByProduct orderBook product = productText product buys.length sells.length ++
        (sells.map (wrappedLine .SELL (matchedOrders .SELL orderBook product))).flatten ++
        (buys.map (wrappedLine .BUY (matchedOrders .BUY orderBook product))).flatten := by
  obtain ⟨sells, hsells, hsellLines⟩ := printLevels_matched .SELL (hpos .SELL)
  obtain ⟨buys, hbuys, hbuyLines⟩ := printLevels_matched .BUY (hpos .BUY)
  refine ⟨sells, buys, hsells, hbuys, ?_⟩
  unfold printOrderByProduct
  rw [levelLoop_matched hsells, levelLoop_matched hbuys]
  simp only [hsellLines, hbuyLines]

theorem totalQuantity_nonneg {os : List Order} (h : ∀ o ∈ os, Positive o) :
    0 ≤ totalQuantity os := by
  refine List.sum_nonneg fun q hq => ?_
  obtain ⟨o, ho, rfl⟩ := List.mem_map.mp hq
  have := (h o ho).1
  omega

/-- The line of a level is exact exactly if its sum is an `int`. -/
theorem wrappedLine_eq_iff {side : OrderType}
    (hpos : ∀ o ∈ matchedOrders side orderBook product, Positive o) (price : Int) :
    wrappedLine side (matchedOrders side orderBook product) price =
        levelLine side orderBook product price ↔
      totalQuantity (levelOrders side orderBook product price) < 2 ^ 31 := by
  have hnonneg : 0 ≤ totalQuantity (levelOrders side orderBook product price) :=
    totalQuantity_nonneg fun o ho => hpos o (List.mem_of_mem_filter ho)
  rw [← toInt32_eq_iff hnonneg]
  refine ⟨fun h => levelText_inj h, fun h => ?_⟩
  show levelText side (toInt32 (totalQuantity (levelOrders side orderBook product price))) _ _ = _
  rw [h]
  rfl

/-- **An exact print has no sum beyond an `int`.** -/
theorem levels_small_of_aggregates
    (hpos : ∀ side, ∀ o ∈ matchedOrders side orderBook product, Positive o)
    (h : Aggregates orderBook product (printOrderByProduct orderBook product)) (side : OrderType)
    (price : Int) : totalQuantity (levelOrders side orderBook product price) < 2 ^ 31 := by
  obtain ⟨sells, buys, hsells, hbuys, hprint⟩ := printOrderByProduct_eq hpos
  obtain ⟨sells', buys', hsells', hbuys', htext⟩ := h
  obtain rfl := hsells.unique hsells'
  obtain rfl := hbuys.unique hbuys'
  rw [hprint, List.append_assoc, List.append_assoc, ← List.flatten_append,
    ← List.flatten_append] at htext
  -- both texts are made of lines, as many for each side
  have hlines := flatten_blocks_inj (p := fun c => decide (c ≠ '['))
    (fun b hb => ?_) (fun b hb => ?_) (List.append_cancel_left htext)
  · obtain ⟨hs, hb⟩ := List.append_inj hlines (by rw [List.length_map, List.length_map])
    have hlevel : ∀ (side : OrderType) (ks : List Int),
        IsLevels (·.unitPrice) (matchedOrders side orderBook product) ks →
        ks.map (wrappedLine side (matchedOrders side orderBook product)) =
          ks.map (levelLine side orderBook product) →
        totalQuantity (levelOrders side orderBook product price) < 2 ^ 31 := by
      intro side ks hks hmap
      by_cases hmem : price ∈ ks
      · exact (wrappedLine_eq_iff (hpos side) price).mp (List.map_inj_left.mp hmap price hmem)
      · -- no order at that price
        have hnil : levelOrders side orderBook product price = [] := by
          refine List.filter_eq_nil_iff.mpr fun o ho heq => hmem ((hks.members price).mpr ⟨o, ho, ?_⟩)
          exact of_decide_eq_true heq
        rw [hnil]
        decide
    cases side with
    | SELL => exact hlevel .SELL sells hsells hs
    | BUY => exact hlevel .BUY buys hbuys hb
  · rcases List.mem_append.mp hb with hb | hb
    all_goals
      obtain ⟨price, -, rfl⟩ := List.mem_map.mp hb
      exact levelText_block _
  · rcases List.mem_append.mp hb with hb | hb
    all_goals
      obtain ⟨price, -, rfl⟩ := List.mem_map.mp hb
      exact levelText_block _

/-- **The printed book is the aggregation of the open orders exactly if the sum of every level is
    an `int`**, for every book with positive open quantities and every product. -/
theorem printed_iff (orderBook : List Order) (product : Word)
    (hpos : ∀ o ∈ orderBook, o.completed = false → Positive o) :
    Aggregates orderBook product (printOrderByProduct orderBook product) ↔
      ∀ side price, totalQuantity (levelOrders side orderBook product price) < 2 ^ 31 := by
  have hpos' : ∀ side, ∀ o ∈ matchedOrders side orderBook product, Positive o := by
    intro side o ho
    obtain ⟨hmem, hmatch⟩ := List.mem_filter.mp ho
    exact hpos o hmem (by simpa using (Bool.and_eq_true_iff.mp hmatch).2)
  refine ⟨fun h => levels_small_of_aggregates hpos' h, fun hsmall => ?_⟩
  obtain ⟨sells, buys, hsells, hbuys, hprint⟩ := printOrderByProduct_eq hpos'
  refine ⟨sells, buys, hsells, hbuys, ?_⟩
  have hline : ∀ side, wrappedLine side (matchedOrders side orderBook product) =
      levelLine side orderBook product :=
    fun side => funext fun price => (wrappedLine_eq_iff (hpos' side) price).mpr (hsmall side price)
  rw [hprint, hline, hline]

end Print

/-- Two sellers at one price and a buyer. -/
theorem printed_iff_two :
    let orderBook : List Order := [⟨.SELL, "GPU".toList, 4, 100, 0, 0, 0, false⟩,
      ⟨.BUY, "GPU".toList, 7, 90, 1, 0, 1, false⟩, ⟨.SELL, "GPU".toList, 5, 100, 1, 1, 2, false⟩]
    (∀ o ∈ orderBook, o.completed = false → Positive o) ∧
    Aggregates orderBook "GPU".toList (printOrderByProduct orderBook "GPU".toList) := by
  intro orderBook
  have hpos : ∀ o ∈ orderBook, o.completed = false → Positive o := by
    intro o ho _
    simp only [orderBook, List.mem_cons, List.not_mem_nil, or_false] at ho
    rcases ho with rfl | rfl | rfl <;> exact ⟨by decide, by decide⟩
  refine ⟨hpos, (printed_iff orderBook "GPU".toList hpos).mpr fun side price => ?_⟩
  cases side with
  | SELL =>
      by_cases hp : price = 100
      · subst hp
        decide
      · have hnil : levelOrders .SELL orderBook "GPU".toList price = [] := by
          simp [levelOrders, atPrice, matchedOrders, orderBook, eq_comm, hp]
        rw [hnil]
        decide
  | BUY =>
      by_cases hp : price = 90
      · subst hp
        decide
      · have hnil : levelOrders .BUY orderBook "GPU".toList price = [] := by
          simp [levelOrders, atPrice, matchedOrders, orderBook, eq_comm, hp]
        rw [hnil]
        decide

/-- `n` sell orders of 999999 at the price 1. -/
def sellers (n : Nat) : List Order :=
  (List.range n).map fun i : Nat => ⟨.SELL, "GPU".toList, 999999, 1, 0, i, i, false⟩

theorem sellers_positive (n : Nat) : ∀ o ∈ sellers n, Positive o := by
  intro o ho
  obtain ⟨i, -, rfl⟩ := List.mem_map.mp ho
  show (1 : Int) ≤ 999999 ∧ (999999 : Int) < 2 ^ 31
  decide

theorem sellers_total (n : Nat) : totalQuantity (sellers n) = n * 999999 := by
  induction n with
  | zero => rfl
  | succ n ih =>
      unfold sellers at ih ⊢
      rw [List.range_succ, List.map_append, List.map_singleton, totalQuantity_concat, ih]
      show (n : Int) * 999999 + 999999 = _
      omega

theorem sellers_overflow {n : Nat} (hn : 2 ^ 31 ≤ n * 999999) :
    ¬ Aggregates (sellers n) "GPU".toList (printOrderByProduct (sellers n) "GPU".toList) := by
  intro h
  have hlevel : levelOrders .SELL (sellers n) "GPU".toList 1 = sellers n := by
    unfold levelOrders atPrice matchedOrders
    rw [List.filter_filter]
    refine List.filter_eq_self.mpr fun o ho => ?_
    obtain ⟨i, -, rfl⟩ := List.mem_map.mp ho
    rfl
  have hsmall := levels_small_of_aggregates
    (fun side o ho => sellers_positive n o (List.mem_of_mem_filter ho)) h .SELL 1
  rw [hlevel, sellers_total] at hsmall
  omega

/-- 2148 of them: their sum is no `int`. -/
theorem printed_overflow :
    (∀ o ∈ sellers 2148, o.completed = false → Positive o) ∧
    ¬ Aggregates (sellers 2148) "GPU".toList
      (printOrderByProduct (sellers 2148) "GPU".toList) :=
  ⟨fun o ho _ => sellers_positive 2148 o ho, sellers_overflow (by decide)⟩

end SysProg.Pe
